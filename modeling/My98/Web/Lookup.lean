/-
  My98.Web.Lookup — `resolveRecord`, in any number of tabs (`src/disk/web/torrent-records.js`).

  A lookup reads the cache, asks every API at once and waits for all of them (`allSettled`); the
  final pass over the answers finds the newest record and writes it.  With `onRecord` every
  answer is ALSO observed as it comes in: the observations form one promise chain, and each of
  them compares its record with the map `streamed`, re-reads the store, writes (publications
  only) and calls back.

  The parts:
    • `finalPass`          — the loop after `allSettled`;
    • `Lookup.observe` …   — one definition for the code between two `await`s of an observation;
    • `Lookup.step`        — the moves of one lookup;
    • `step`               — the tabs of a browser over one database.

  What the code does not keep (which records were parsed, skipped after an abort, dropped by a
  failed observation, passed to `onRecord`) is carried along in the fields marked as history.
-/
import Mathlib.Algebra.Order.Ring.Nat
import Mathlib.Tactic.Common
import My98.Lib.Machine
import My98.Web.RecordStore

namespace My98.Web.Records

open My98.Lib

/-! ## §1. A lookup. -/

/-- The promise of one API. -/
inductive Slot where
  | fetching
  | queued (r : WebRecord)
  | fulfilled (value : Option WebRecord)
  | rejected
  deriving DecidableEq, Repr

def Slot.settled : Slot → Bool
  | fulfilled _ => true
  | rejected => true
  | _ => false

/-- `result.value`, where there is one. -/
def Slot.record? : Slot → Option WebRecord
  | fulfilled value => value
  | _ => none

def Slot.isFulfilled : Slot → Bool
  | fulfilled _ => true
  | _ => false

/-- What a running observation waits for: `cachedRecord`, `observeRecord`, its turn to call
    `onRecord`, or the promise of that call. -/
inductive Stage where
  | reading
  | storing
  | notifying
  | returning
  deriving DecidableEq, Repr

inductive Outcome where
  | returned (r : Option WebRecord)
  | rejected (e : Fail)
  /-- Rejected with `signal.reason`. -/
  | cancelled
  deriving DecidableEq, Repr

/-- Inside the first `cachedRecord`, inside `allSettled`, inside the last `observeRecord`, or
    over. -/
inductive Phase where
  | opening
  | waiting
  | storing (best : WebRecord)
  | ended (outcome : Outcome)
  deriving DecidableEq, Repr

structure Lookup where
  key : String
  locations : Bool
  onRecord : Bool
  apis : Nat
  phase : Phase
  /-- The caller's signal, and the lookup's own controller. -/
  cancelled : Bool
  aborted : Bool
  best : Option WebRecord
  observed : Option WebRecord
  /-- The map from sequences to identities. -/
  streamed : List (Nat × Contents)
  conflict : Bool
  slots : Nat → Slot
  /-- The promise chain: the observations that wait, and the one that runs. -/
  observations : List Nat
  active : Option (Nat × Stage)
  /-- History: authenticated answers; those an observation compared with the map (and the cached
      record); those skipped after an abort; those whose observation failed. -/
  parsed : List WebRecord
  looked : List WebRecord
  skipped : List WebRecord
  failed : List WebRecord
  /-- History: calls of `onRecord`; durable records that were read; what the last transaction
      left durable; whether the first read or the last transaction met a fault. -/
  notified : List WebRecord
  durables : List WebRecord
  stored : Option WebRecord
  faulted : Bool

/-- `resolveRecord` up to its first `await`. -/
def Lookup.start (key : String) (locations onRecord : Bool) (apis : Nat) : Lookup where
  key
  locations
  onRecord
  apis
  phase := .opening
  cancelled := false
  aborted := false
  best := none
  observed := none
  streamed := []
  conflict := false
  slots := fun _ => .fetching
  observations := []
  active := none
  parsed := []
  looked := []
  skipped := []
  failed := []
  notified := []
  durables := []
  stored := none
  faulted := false

def Lookup.blank (l : Lookup) : Lookup := Lookup.start l.key l.locations l.onRecord l.apis

/-- `if(!best || candidate.sequence > best.sequence) best = candidate`. -/
def newest (best : Option WebRecord) (candidate : WebRecord) : Option WebRecord :=
  if best.all fun b => decide (b.sequence < candidate.sequence) then some candidate else best

/-- The map holds another identity under the sequence of this record. -/
def clashes (seen : List (Nat × Contents)) (r : WebRecord) : Bool :=
  (seen.lookup r.sequence).any fun previous => decide (previous ≠ r.contents)

/-- `map.set(record.sequence, identity)`. -/
def mark (seen : List (Nat × Contents)) (r : WebRecord) : List (Nat × Contents) :=
  (r.sequence, r.contents) :: seen

/-- The map a cached record starts. -/
def seenOf (best : Option WebRecord) : List (Nat × Contents) :=
  best.elim [] (mark [])

/-- The loop over the settled answers; `none` when it throws. -/
def finalPass : List (Nat × Contents) → Option WebRecord → List WebRecord →
    Option (Option WebRecord)
  | _, best, [] => some best
  | seen, best, candidate :: rest =>
    if clashes seen candidate then none
    else finalPass (mark seen candidate) (newest best candidate) rest

/-! ## §2. Moves. -/

def conflictingSources : Fail :=
  conflict "Sources returned conflicting publications with the same sequence"

def noSource : Fail := ⟨"PUBLICATION_UNAVAILABLE", "No signed publication source is available"⟩

/-- What a fetch comes to: status 404, a body that parses to a value, or any failure before
    that (network, abort, status, size, encoding, syntax). -/
inductive Answer where
  | absent
  | value (v : Json)
  | failed

namespace Lookup

def setSlot (l : Lookup) (j : Nat) (slot : Slot) : Lookup :=
  { l with slots := Function.update l.slots j slot }

def ended (l : Lookup) (outcome : Outcome) : Lookup := { l with phase := .ended outcome }

/-- From the cached record to the `await` of `allSettled`. -/
def opened (l : Lookup) (best : Option WebRecord) : Lookup :=
  { l.blank with
    phase := .waiting
    best
    observed := best
    streamed := seenOf best
    looked := best.toList
    durables := best.toList }

/-- `best = await cachedRecord(…)`, then the check of the signal. -/
def opening (c : Checks) (db : Database) (l : Lookup) (fault : Option Fault) : Lookup :=
  match cachedRecord c db l.locations l.key fault with
  | .error e => { l.blank with phase := .ended (.rejected e), faulted := fault.isSome }
  | .ok best => if l.cancelled then l.blank.ended .cancelled else l.opened best

/-- A fetch settles. -/
def fetched (c : Checks) (l : Lookup) (j : Nat) : Answer → Lookup
  | .absent => l.setSlot j (.fulfilled none)
  | .failed => l.setSlot j .rejected
  | .value v =>
    match c.check l.locations v l.key with
    | .error _ => l.setSlot j .rejected
    | .ok r =>
      if l.onRecord then
        { l.setSlot j (.queued r) with
          observations := l.observations ++ [j]
          parsed := l.parsed ++ [r] }
      else { l.setSlot j (.fulfilled (some r)) with parsed := l.parsed ++ [r] }

/-- An observation that returns: its API is fulfilled with the record. -/
def returns (l : Lookup) (j : Nat) (r : WebRecord) : Lookup :=
  { l.setSlot j (.fulfilled (some r)) with active := none }

/-- An observation that throws: its API is rejected. -/
def throws (l : Lookup) (j : Nat) (r : WebRecord) : Lookup :=
  { l.setSlot j .rejected with active := none, failed := l.failed ++ [r] }

/-- The synchronous part of an observation. -/
def observe (l : Lookup) (j : Nat) (r : WebRecord) : Lookup :=
  if l.aborted then { l.returns j r with skipped := l.skipped ++ [r] }
  else if clashes l.streamed r then
    { l.returns j r with conflict := true, looked := l.looked ++ [r] }
  else if l.conflict then
    { l.returns j r with streamed := mark l.streamed r, looked := l.looked ++ [r] }
  else
    { l with
      streamed := mark l.streamed r
      looked := l.looked ++ [r]
      observed := newest l.observed r
      active := some (j, .reading) }

/-- `current = await cachedRecord(…)`; locations are not written here. -/
def read (c : Checks) (db : Database) (l : Lookup) (j : Nat) (r : WebRecord)
    (fault : Option Fault) : Lookup :=
  match cachedRecord c db l.locations l.key fault with
  | .error _ => l.throws j r
  | .ok current =>
    { l with
      observed := current.elim l.observed (newest l.observed)
      durables := l.durables ++ current.toList
      active := some (j, if l.locations then .notifying else .storing) }

/-- The promise of the observation's `observeRecord` settles. -/
def wrote (c : Checks) (l : Lookup) (j : Nat) (r : WebRecord) :
    Database × Except Fail WebRecord → Database × Lookup
  | (db, .error _) => (db, l.throws j r)
  | (db, .ok _) =>
    (db, { l with stored := db.durable c l.locations l.key, active := some (j, .notifying) })

/-- `await observeRecord(observed, …)`. -/
def store (c : Checks) (db : Database) (l : Lookup) (j : Nat) (r : WebRecord)
    (fault : Option Fault) : Database × Lookup :=
  match l.observed with
  | none => (db, l.throws j r)
  | some observed =>
    l.wrote c j r (observeRecord c db l.locations observed.asJson l.key fault)

/-- `onRecord(observed)` is called. -/
def notify (l : Lookup) (j : Nat) : Lookup :=
  { l with notified := l.notified ++ l.observed.toList, active := some (j, .returning) }

def responses (l : Lookup) : List Slot := (List.range l.apis).map l.slots

/-- `allSettled` is over. -/
def settle (l : Lookup) : Lookup :=
  if l.cancelled then l.ended .cancelled
  else if l.conflict then l.ended (.rejected conflictingSources)
  else
    match finalPass (seenOf l.best) l.best (l.responses.filterMap Slot.record?) with
    | none => l.ended (.rejected conflictingSources)
    | some (some best) => { l with phase := .storing best }
    | some none =>
      if l.responses.any Slot.isFulfilled then l.ended (.returned none)
      else l.ended (.rejected noSource)

/-- `return await observeRecord(best, …)`. -/
def finish (c : Checks) (db : Database) (l : Lookup) (best : WebRecord) (fault : Option Fault) :
    Database × Lookup :=
  match observeRecord c db l.locations best.asJson l.key fault with
  | (db', .error e) =>
    (db', { l.ended (.rejected e) with
      durables := l.durables ++ (db.durable c l.locations l.key).toList
      faulted := fault.isSome })
  | (db', .ok r) =>
    (db', { l.ended (.returned (some r)) with
      durables := l.durables ++ (db.durable c l.locations l.key).toList })

end Lookup

/-- What can happen to a lookup. -/
inductive Move where
  | open (fault : Option Fault)
  /-- The caller's signal is aborted. -/
  | cancel
  /-- The timer fires. -/
  | timeout
  | fetched (j : Nat) (answer : Answer)
  /-- The chain takes up the next observation. -/
  | observe
  | read (fault : Option Fault)
  | store (fault : Option Fault)
  | notify
  /-- The promise of `onRecord` settles. -/
  | called (returns : Bool)
  | settle
  | finish (fault : Option Fault)

/-- A move of the observation that runs, with its API and its record. -/
def Lookup.work (c : Checks) (db : Database) (l : Lookup) (j : Nat) (r : WebRecord) :
    Stage → Move → Option (Database × Lookup)
  | .reading, .read fault => some (db, l.read c db j r fault)
  | .storing, .store fault => some (l.store c db j r fault)
  | .notifying, .notify => some (db, l.notify j)
  | .returning, .called true => some (db, l.returns j r)
  | .returning, .called false => some (db, l.throws j r)
  | _, _ => none

/-- The moves inside `allSettled`. -/
def Lookup.await (c : Checks) (db : Database) (l : Lookup) : Move → Option (Database × Lookup)
  | .cancel => some (db, { l with cancelled := true, aborted := true })
  | .timeout => some (db, { l with aborted := true })
  | .fetched j answer =>
    if j < l.apis ∧ l.slots j = .fetching then some (db, l.fetched c j answer) else none
  | .observe =>
    match l.active, l.observations with
    | none, j :: rest =>
      match l.slots j with
      | .queued r => some (db, { l with observations := rest }.observe j r)
      | _ => none
    | _, _ => none
  | .settle => if l.responses.all Slot.settled then some (db, l.settle) else none
  | m =>
    match l.active with
    | none => none
    | some (j, stage) =>
      match l.slots j with
      | .queued r => l.work c db j r stage m
      | _ => none

def Lookup.step (c : Checks) (db : Database) (l : Lookup) (m : Move) :
    Option (Database × Lookup) :=
  match l.phase, m with
  | .opening, .open fault => some (db, l.opening c db fault)
  | .opening, .cancel => some (db, { l with cancelled := true })
  | .waiting, m => l.await c db m
  | .storing _, .cancel => some (db, { l with cancelled := true, aborted := true })
  | .storing best, .finish fault => some (l.finish c db best fault)
  | _, _ => none

/-- Everything a lookup can do in one step, with what makes it possible. -/
inductive Took (c : Checks) (db : Database) (l : Lookup) : Move → Database → Lookup → Prop where
  | opening (fault : Option Fault) (hp : l.phase = .opening) :
      Took c db l (.open fault) db (l.opening c db fault)
  | refuse (hp : l.phase = .opening) : Took c db l .cancel db { l with cancelled := true }
  | cancel (hp : l.phase = .waiting ∨ ∃ best, l.phase = .storing best) :
      Took c db l .cancel db { l with cancelled := true, aborted := true }
  | timeout (hp : l.phase = .waiting) : Took c db l .timeout db { l with aborted := true }
  | fetched (j : Nat) (answer : Answer) (hp : l.phase = .waiting) (hj : j < l.apis)
      (hslot : l.slots j = .fetching) : Took c db l (.fetched j answer) db (l.fetched c j answer)
  | observe (j : Nat) (rest : List Nat) (r : WebRecord) (hp : l.phase = .waiting)
      (hidle : l.active = none) (hfirst : l.observations = j :: rest)
      (hslot : l.slots j = .queued r) :
      Took c db l .observe db ({ l with observations := rest }.observe j r)
  | read (j : Nat) (r : WebRecord) (fault : Option Fault) (hp : l.phase = .waiting)
      (hactive : l.active = some (j, .reading)) (hslot : l.slots j = .queued r) :
      Took c db l (.read fault) db (l.read c db j r fault)
  | store (j : Nat) (r : WebRecord) (fault : Option Fault) (hp : l.phase = .waiting)
      (hactive : l.active = some (j, .storing)) (hslot : l.slots j = .queued r) :
      Took c db l (.store fault) (l.store c db j r fault).1 (l.store c db j r fault).2
  | notify (j : Nat) (r : WebRecord) (hp : l.phase = .waiting)
      (hactive : l.active = some (j, .notifying)) (hslot : l.slots j = .queued r) :
      Took c db l .notify db (l.notify j)
  | returns (j : Nat) (r : WebRecord) (hp : l.phase = .waiting)
      (hactive : l.active = some (j, .returning)) (hslot : l.slots j = .queued r) :
      Took c db l (.called true) db (l.returns j r)
  | throws (j : Nat) (r : WebRecord) (hp : l.phase = .waiting)
      (hactive : l.active = some (j, .returning)) (hslot : l.slots j = .queued r) :
      Took c db l (.called false) db (l.throws j r)
  | settle (hp : l.phase = .waiting) (hall : l.responses.all Slot.settled = true) :
      Took c db l .settle db l.settle
  | finish (best : WebRecord) (fault : Option Fault) (hp : l.phase = .storing best) :
      Took c db l (.finish fault) (l.finish c db best fault).1 (l.finish c db best fault).2

section Moves

variable {c : Checks} {db db' : Database} {l l' : Lookup} {m : Move}

theorem work_took {j : Nat} {r : WebRecord} {stage : Stage} (hp : l.phase = .waiting)
    (hactive : l.active = some (j, stage)) (hslot : l.slots j = .queued r)
    (h : l.work c db j r stage m = some (db', l')) : Took c db l m db' l' := by
  unfold Lookup.work at h
  split at h
  · obtain ⟨rfl, rfl⟩ := Prod.mk.inj (Option.some.inj h)
    exact .read j r _ hp hactive hslot
  · obtain ⟨rfl, rfl⟩ := Prod.ext_iff.mp (Option.some.inj h)
    exact .store j r _ hp hactive hslot
  · obtain ⟨rfl, rfl⟩ := Prod.mk.inj (Option.some.inj h)
    exact .notify j r hp hactive hslot
  · obtain ⟨rfl, rfl⟩ := Prod.mk.inj (Option.some.inj h)
    exact .returns j r hp hactive hslot
  · obtain ⟨rfl, rfl⟩ := Prod.mk.inj (Option.some.inj h)
    exact .throws j r hp hactive hslot
  · cases h

theorem await_took (hp : l.phase = .waiting) (h : l.await c db m = some (db', l')) :
    Took c db l m db' l' := by
  unfold Lookup.await at h
  split at h
  · obtain ⟨rfl, rfl⟩ := Prod.mk.inj (Option.some.inj h)
    exact .cancel (.inl hp)
  · obtain ⟨rfl, rfl⟩ := Prod.mk.inj (Option.some.inj h)
    exact .timeout hp
  · split at h
    next hj =>
      obtain ⟨rfl, rfl⟩ := Prod.mk.inj (Option.some.inj h)
      exact .fetched _ _ hp hj.1 hj.2
    · cases h
  · split at h
    next j rest hidle hfirst =>
      split at h
      next r hslot =>
        obtain ⟨rfl, rfl⟩ := Prod.mk.inj (Option.some.inj h)
        exact .observe j rest r hp hidle hfirst hslot
      · cases h
    · cases h
  · split at h
    next hall =>
      obtain ⟨rfl, rfl⟩ := Prod.mk.inj (Option.some.inj h)
      exact .settle hp hall
    · cases h
  · split at h
    · cases h
    next j stage hactive =>
      split at h
      next r hslot => exact work_took hp hactive hslot h
      · cases h

/-- **One step of a lookup.** -/
theorem step_took (h : l.step c db m = some (db', l')) : Took c db l m db' l' := by
  unfold Lookup.step at h
  split at h
  next hp =>
    obtain ⟨rfl, rfl⟩ := Prod.mk.inj (Option.some.inj h)
    exact .opening _ hp
  next hp =>
    obtain ⟨rfl, rfl⟩ := Prod.mk.inj (Option.some.inj h)
    exact .refuse hp
  next hp => exact await_took hp h
  next best hp =>
    obtain ⟨rfl, rfl⟩ := Prod.mk.inj (Option.some.inj h)
    exact .cancel (.inr ⟨best, hp⟩)
  next best _ hp =>
    obtain ⟨rfl, rfl⟩ := Prod.ext_iff.mp (Option.some.inj h)
    exact .finish best _ hp
  · cases h

end Moves

/-! ## §3. The tabs. -/

/-- One database and the lookups of all tabs. -/
structure Browser where
  db : Database
  lookups : Nat → Option Lookup

/-- `onupgradeneeded` has just made the stores. -/
def Browser.init : Browser where
  db := { names := fun _ => none, locations := fun _ => none, pieces := [], metadata := [] }
  lookups := fun _ => none

namespace Browser

inductive Event where
  /-- Some tab calls `observeRecord` on any value; this is its transaction. -/
  | observe (locations : Bool) (value : Json) (key : String) (fault : Option Fault)
  /-- Some tab calls `clearTorrentCache`. -/
  | clear (hash : Option String)
  /-- Some tab calls `resolveRecord`. -/
  | lookup (i : Nat) (key : String) (locations onRecord : Bool) (apis : Nat)
  | move (i : Nat) (m : Move)

def step (c : Checks) (s : Browser) : Event → Option Browser
  | .observe locations value key fault =>
    some { s with db := (observeRecord c s.db locations value key fault).1 }
  | .clear hash => some { s with db := s.db.clear hash }
  | .lookup i key locations onRecord apis =>
    match s.lookups i with
    | some _ => none
    | none =>
      some { s with
        lookups := Function.update s.lookups i (some (.start key locations onRecord apis)) }
  | .move i m =>
    match s.lookups i with
    | none => none
    | some l =>
      match l.step c s.db m with
      | none => none
      | some (db, l') => some ⟨db, Function.update s.lookups i (some l')⟩

end Browser

end My98.Web.Records
