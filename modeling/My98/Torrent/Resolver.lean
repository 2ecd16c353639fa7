/-
  My98.Torrent.Resolver — bounded public name resolution (`resolver.py`).

  A resolver answers for any identity, a public key with a salt.  Callers of one identity share
  ONE lookup, and between a caller and the DHT stands a cache with room for `capacity`
  identities, oldest use first out.  A caller may bring a record it already has (`known`); the
  answer is meant never to go below it.

  The bodies run in turns: `resolve` up to `await asyncio.shield(task)`, the task of a lookup
  up to the engine's answer, and from there to its end.  A caller resumes some turns after its
  task is done.  Every such turn is an event here, in any order that is possible.

    • `bounded`               — one lookup for each identity, cache and pending within capacity;
    • `floor_of_undisturbed`  — what is returned is at least `known`, and never returned past a
      recorded conflict, in every run that evicts no floor a caller still relies on and records
      no conflict behind a caller that has yet to resume;
    • `forgotten_floor`, `overtaken_conflict` — a run of either kind in which it is not so.
-/
import Mathlib.Algebra.Order.Ring.Nat
import Mathlib.Data.List.Nodup
import Mathlib.Tactic.Common
import My98.Lib.Machine
import My98.Torrent.Protocol

namespace My98.Torrent.Names

open My98.Lib

/-! ## §1. Records of either kind. -/

inductive Mutable where
  | publication (record : Record)
  | locations (locations : Locations)
  deriving DecidableEq, Repr

namespace Mutable

def salt : Mutable → Bytes
  | .publication _ => publicationSalt
  | .locations _ => locationsSalt

def publicKey : Mutable → Bytes
  | .publication r => r.publicKey
  | .locations l => l.publicKey

def sequence : Mutable → Nat
  | .publication r => r.sequence
  | .locations l => l.sequence

def value : Mutable → Bytes
  | .publication r => Signed.value r
  | .locations l => Signed.value l

def verify (wire : Wire) : Mutable → Except Failure Unit
  | .publication r => r.verify wire
  | .locations l => l.verify wire

end Mutable

/-- `(key, salt)`. -/
abbrev Identity := Bytes × Bytes

/-- The check that `newest` makes of both of its records. -/
def belongs (wire : Wire) (identity : Identity) (value : Mutable) : Except Failure Unit := do
  value.verify wire
  raiseIf (value.publicKey ≠ identity.1 ∨ value.salt ≠ identity.2)
    (.publication "DHT record belongs to a different identity or salt")

def belongsIfAny (wire : Wire) (identity : Identity) : Option Mutable → Except Failure Unit
  | some value => belongs wire identity value
  | none => pure ()

def newest (wire : Wire) (identity : Identity) (previous record : Option Mutable) :
    Except Failure (Option Mutable) := do
  belongsIfAny wire identity previous
  belongsIfAny wire identity record
  match previous, record with
  | none, record => return record
  | some previous, none => return some previous
  | some previous, some record =>
    if previous.sequence = record.sequence ∧ previous.value ≠ record.value then
      throw (.conflict "Conflicting DHT records have the same sequence")
    else return some (if record.sequence > previous.sequence then record else previous)

/-! ## §2. The resolver. -/

/-- What `Resolver(engine, …)` is given: 128, 8, 30 and 5 where nothing else is said. -/
structure Config where
  capacity : Nat
  concurrency : Nat
  ttl : Nat
  negativeTtl : Nat

structure Cached where
  expires : Nat
  record : Option Mutable
  conflict : Option Failure
  deriving DecidableEq

/-- A task made by `start_lookup` that is not done. -/
structure Lookup where
  task : Nat
  identity : Identity
  floor : Option Mutable
  /-- Whether it has one of the `slots`, that is, whether the engine is asked. -/
  querying : Bool
  deriving DecidableEq

/-- A call of `resolve` that awaits `shield(task)`. -/
structure Caller where
  identity : Identity
  known : Option Mutable
  task : Nat
  deriving DecidableEq

/-- What a call of `resolve` returned, and whether a conflict stood recorded at that moment. -/
structure Returned where
  identity : Identity
  known : Option Mutable
  record : Option Mutable
  blocked : Bool
  deriving DecidableEq

structure Resolver where
  now : Nat
  /-- An `OrderedDict`, the least recently used entry first. -/
  cache : List (Identity × Cached)
  pending : List Lookup
  /-- The tasks that are done, with their results. -/
  finished : List (Nat × Except Failure (Option Mutable))
  callers : List Caller
  /-- How many tasks were ever made. -/
  tasks : Nat
  /-- History: the identities for which a conflict was recorded, and neither was the entry
      evicted since nor did a lookup complete without conflict. -/
  blocked : List Identity
  /-- History: everything that was returned. -/
  returned : List Returned

namespace Resolver

def new : Resolver where
  now := 0
  cache := []
  pending := []
  finished := []
  callers := []
  tasks := 0
  blocked := []
  returned := []

/-- `cache.get(identity)`. -/
def get (s : Resolver) (identity : Identity) : Option Cached :=
  (s.cache.find? fun row => row.1 = identity).map (·.2)

/-- The record of the entry, if there is one. -/
def recorded (s : Resolver) (identity : Identity) : Option Mutable :=
  (s.get identity).bind (·.record)

/-- The other entries of the cache. -/
def others (s : Resolver) (identity : Identity) : List (Identity × Cached) :=
  s.cache.filter fun row => row.1 ≠ identity

/-- The entries that `remember(identity, …)` pushes out. -/
def evicted (config : Config) (s : Resolver) (identity : Identity) : List (Identity × Cached) :=
  (s.others identity).take ((s.others identity).length + 1 - config.capacity)

/-- `remember`. -/
def remember (config : Config) (s : Resolver) (identity : Identity) (entry : Cached) : Resolver :=
  let cache := s.others identity ++ [(identity, entry)]
  { s with
    cache := cache.drop (cache.length - config.capacity)
    blocked := s.blocked.filter fun other => other ∉ (s.evicted config identity).map (·.1) }

/-- Remember a conflict. -/
def block (config : Config) (s : Resolver) (identity : Identity) (record : Option Mutable)
    (e : Failure) : Resolver :=
  let s := s.remember config identity ⟨s.now + config.negativeTtl, record, some e⟩
  { s with blocked := identity :: s.blocked }

/-- Remember the result of a lookup that completed. -/
def unblock (config : Config) (s : Resolver) (identity : Identity) (record : Option Mutable) :
    Resolver :=
  let lifetime := if record.isSome then config.ttl else config.negativeTtl
  let s := s.remember config identity ⟨s.now + lifetime, record, none⟩
  { s with blocked := s.blocked.filter fun other => other ≠ identity }

/-- `start_lookup`: the task that is already there, or a new one. -/
def startLookup (config : Config) (s : Resolver) (identity : Identity) (floor : Option Mutable) :
    Except Failure (Resolver × Nat) :=
  match s.pending.find? fun l => l.identity = identity with
  | some l => .ok (s, l.task)
  | none =>
    if s.pending.length ≥ config.capacity then
      .error (.publication "DHT resolver is busy; retry shortly")
    else
      .ok ({ s with
        pending := s.pending ++ [⟨s.tasks, identity, floor, false⟩]
        tasks := s.tasks + 1 }, s.tasks)

/-- The call returns. -/
def give (s : Resolver) (identity : Identity) (known record : Option Mutable) : Resolver :=
  { s with returned := s.returned ++ [⟨identity, known, record, identity ∈ s.blocked⟩] }

/-- The last two lines of `resolve`: join the lookup and wait for it. -/
def wait (config : Config) (s : Resolver) (identity : Identity) (known floor : Option Mutable) :
    Resolver :=
  match s.startLookup config identity floor with
  | .ok (s, task) => { s with callers := s.callers ++ [⟨identity, known, task⟩] }
  | .error _ => s

/-- A verified record is served while the lookup runs, also when there is no room for one. -/
def refreshing (config : Config) (s : Resolver) (identity : Identity) (floor : Option Mutable) :
    Resolver :=
  match s.startLookup config identity floor with
  | .ok (s, _) => s
  | .error _ => s

/-- `resolve` from the look at the entry on. -/
def serve (config : Config) (s : Resolver) (identity : Identity) (known : Option Mutable)
    (refresh : Bool) (entry : Cached) : Resolver :=
  if entry.conflict.isSome = true ∧ entry.expires > s.now then s
  else if refresh = false ∧ entry.conflict = none ∧ entry.expires > s.now then
    s.give identity known entry.record
  else if known.isSome = true ∧ refresh = false ∧ entry.conflict = none then
    (s.refreshing config identity entry.record).give identity known entry.record
  else s.wait config identity known entry.record

/-- The entry with a known record merged into it. -/
def merged (s : Resolver) (identity : Identity) (record : Option Mutable) : Cached where
  expires :=
    match s.get identity with
    | some entry => if record = entry.record then entry.expires else 0
    | none => 0
  record := record
  conflict := (s.get identity).bind (·.conflict)

/-- `resolve`, up to its await.  A call that raises leaves only what it remembered. -/
def resolve (wire : Wire) (config : Config) (s : Resolver) (identity : Identity)
    (known : Option Mutable) (refresh : Bool) : Resolver :=
  match known with
  | some k =>
    match newest wire identity (s.recorded identity) (some k) with
    | .ok record =>
      let entry := s.merged identity record
      (s.remember config identity entry).serve config identity known refresh entry
    | .error e => if e.isConflict then s.block config identity (s.recorded identity) e else s
  | none =>
    match s.get identity with
    | some entry => (s.remember config identity entry).serve config identity none refresh entry
    | none => s.wait config identity none none

/-- What a lookup makes of the engine's answer. -/
def outcome (wire : Wire) (s : Resolver) (l : Lookup) (answer : Except Failure (Option Mutable)) :
    Except Failure (Option Mutable) := do
  let record ← answer
  let base ← newest wire l.identity l.floor (s.recorded l.identity)
  newest wire l.identity base record

/-- `lookup` from the engine's answer on. -/
def settle (wire : Wire) (config : Config) (s : Resolver) (l : Lookup)
    (answer : Except Failure (Option Mutable)) : Resolver :=
  let result := s.outcome wire l answer
  let after :=
    match result with
    | .ok record => s.unblock config l.identity record
    | .error e =>
      if e.isConflict then
        s.block config l.identity
          (if (s.get l.identity).isSome then s.recorded l.identity else l.floor) e
      else s
  { after with
    pending := after.pending.filter fun other => other.identity ≠ l.identity
    finished := after.finished ++ [(l.task, result)] }

/-- A caller whose task is done resumes: it returns the result, or raises. -/
def wake (s : Resolver) (c : Caller) : Option Resolver :=
  match s.finished.find? fun done => done.1 = c.task with
  | some (_, .ok record) =>
    some ({ s with callers := s.callers.erase c }.give c.identity c.known record)
  | some (_, .error _) => some { s with callers := s.callers.erase c }
  | none => none

end Resolver

/-! ## §3. Its events. -/

inductive Event where
  | resolve (identity : Identity) (known : Option Mutable) (refresh : Bool)
  /-- A waiting lookup gets a slot. -/
  | acquired (identity : Identity)
  /-- The engine answers, or raises. -/
  | answered (identity : Identity) (answer : Except Failure (Option Mutable))
  /-- `wait_for` gives up. -/
  | timedOut (identity : Identity)
  | resumed (caller : Caller)
  /-- The caller is gone before its task is done. -/
  | disconnected (caller : Caller)
  | elapsed (ticks : Nat)

/-- The lookup of the identity asks the engine. -/
def Lookup.acquire (identity : Identity) (l : Lookup) : Lookup :=
  if l.identity = identity then { l with querying := true } else l

/-- The task that is pending for an identity. -/
def Resolver.lookup (s : Resolver) (identity : Identity) : Option Lookup :=
  s.pending.find? fun l => l.identity = identity

def Resolver.step (wire : Wire) (config : Config) (s : Resolver) : Event → Option Resolver
  | .resolve identity known refresh => some (s.resolve wire config identity known refresh)
  | .acquired identity =>
    if (s.pending.filter (·.querying)).length < config.concurrency then
      some { s with pending := s.pending.map (·.acquire identity) }
    else none
  | .answered identity answer =>
    match s.lookup identity with
    | some l => if l.querying then some (s.settle wire config l answer) else none
    | none => none
  | .timedOut identity =>
    (s.lookup identity).map fun l => s.settle wire config l (.error (.other "TimeoutError"))
  | .resumed c => if c ∈ s.callers then s.wake c else none
  | .disconnected c =>
    if c ∈ s.callers then some { s with callers := s.callers.erase c } else none
  | .elapsed ticks => some { s with now := s.now + ticks }

/-! ## §4. What `newest` returns. -/

/-- A verified record of the identity. -/
structure Proper (wire : Wire) (identity : Identity) (v : Mutable) : Prop where
  verified : v.verify wire = .ok ()
  key : v.publicKey = identity.1
  salt : v.salt = identity.2

def ProperIfAny (wire : Wire) (identity : Identity) (record : Option Mutable) : Prop :=
  ∀ v, record = some v → Proper wire identity v

/-- A later record, or the same value at the same sequence. -/
def Covers (r k : Mutable) : Prop :=
  k.sequence < r.sequence ∨ r.sequence = k.sequence ∧ r.value = k.value

instance (r k : Mutable) : Decidable (Covers r k) := inferInstanceAs (Decidable (_ ∨ _))

/-- **Never below the floor**: whatever the floor is, the record covers it. -/
def Above : Option Mutable → Option Mutable → Prop
  | _, none => True
  | none, some _ => False
  | some r, some k => Covers r k

instance : ∀ record floor, Decidable (Above record floor)
  | _, none => isTrue trivial
  | none, some _ => isFalse id
  | some r, some k => inferInstanceAs (Decidable (Covers r k))

/-- Everything is above nothing. -/
theorem above_none (record : Option Mutable) : Above record none := by
  cases record <;> trivial

/-- A record is above itself. -/
theorem Above.refl (record : Option Mutable) : Above record record := by
  cases record with
  | none => trivial
  | some r => exact .inr ⟨rfl, rfl⟩

/-- The order of records is transitive. -/
theorem Above.trans {a b c : Option Mutable} (hab : Above a b) (hbc : Above b c) : Above a c := by
  cases c with
  | none => exact above_none a
  | some k =>
    cases b with
    | none => exact absurd hbc id
    | some m =>
      cases a with
      | none => exact absurd hab id
      | some r =>
        show Covers r k
        have hrm : Covers r m := hab
        have hmk : Covers m k := hbc
        unfold Covers at hrm hmk ⊢
        rcases hrm with hrm | ⟨hseq, hval⟩ <;> rcases hmk with hmk | ⟨hseq', hval'⟩
        · left
          omega
        · left
          omega
        · left
          omega
        · right
          exact ⟨hseq.trans hseq', hval.trans hval'⟩

section Newest

variable {wire : Wire} {identity : Identity}

/-- A record that belongs to an identity is proper for it. -/
theorem proper_of_belongs {v : Mutable} (h : belongs wire identity v = .ok ()) :
    Proper wire identity v := by
  obtain ⟨_, hv, h⟩ := ok_of_bind h
  have hkey := raiseIf_ok h
  push Not at hkey
  exact ⟨hv, hkey.1, hkey.2⟩

/-- So is one that belongs if it is there. -/
theorem proper_of_belongsIfAny {record : Option Mutable} {u : Unit}
    (h : belongsIfAny wire identity record = .ok u) : ProperIfAny wire identity record := by
  rintro v rfl
  exact proper_of_belongs h

/-- A record that does not belong is no conflict. -/
theorem belongs_error {v : Mutable} {e : Failure} (h : belongs wire identity v = .error e) :
    e.isConflict = false := by
  obtain h | ⟨_, -, h⟩ := error_of_bind h
  · cases v with
    | publication r => exact Record.verify_error h
    | locations l => exact Locations.verify_error h
  · rw [(raiseIf_error h).2]
    rfl

/-- Nor is one that need not be there. -/
theorem belongsIfAny_error {record : Option Mutable} {e : Failure}
    (h : belongsIfAny wire identity record = .error e) : e.isConflict = false := by
  cases record with
  | none => cases h
  | some v => exact belongs_error h

/-- `newest` returns one of two proper records, and never the lower one. -/
theorem newest_ok {previous record out : Option Mutable}
    (h : newest wire identity previous record = .ok out) :
    ProperIfAny wire identity out ∧ Above out previous ∧ Above out record := by
  obtain ⟨_, hp, h⟩ := ok_of_bind h
  obtain ⟨_, hr, h⟩ := ok_of_bind h
  have hprevious := proper_of_belongsIfAny hp
  have hrecord := proper_of_belongsIfAny hr
  cases previous with
  | none =>
    obtain rfl := Except.ok.inj h
    exact ⟨hrecord, above_none _, Above.refl _⟩
  | some p =>
    cases record with
    | none =>
      obtain rfl := Except.ok.inj h
      exact ⟨hprevious, Above.refl _, above_none _⟩
    | some r =>
      dsimp only at h
      split at h
      · cases h
      · rename_i hclash
        obtain rfl := Except.ok.inj h
        split
        · rename_i hgt
          exact ⟨hrecord, .inl hgt, .inr ⟨rfl, rfl⟩⟩
        · rename_i hle
          refine ⟨hprevious, .inr ⟨rfl, rfl⟩, ?_⟩
          show Covers p r
          unfold Covers
          by_cases hseq : p.sequence = r.sequence
          · right
            exact ⟨hseq, not_not.mp fun hval => hclash ⟨hseq, hval⟩⟩
          · left
            omega

/-- A conflict is between two records, both of the identity. -/
theorem newest_conflict {previous : Option Mutable} {k : Mutable} {e : Failure}
    (h : newest wire identity previous (some k) = .error e) (he : e.isConflict = true) :
    previous.isSome = true ∧ belongs wire identity k = .ok () := by
  obtain h | ⟨_, -, h⟩ := error_of_bind h
  · rw [belongsIfAny_error h] at he
    cases he
  obtain h | ⟨_, hk, h⟩ := error_of_bind h
  · rw [belongsIfAny_error h] at he
    cases he
  cases previous with
  | none => cases h
  | some p => exact ⟨rfl, hk⟩

/-- `newest` accepts only a record of the identity. -/
theorem belongs_of_newest {previous out : Option Mutable} {k : Mutable}
    (h : newest wire identity previous (some k) = .ok out) : belongs wire identity k = .ok () := by
  obtain ⟨_, -, h⟩ := ok_of_bind h
  obtain ⟨_, hk, -⟩ := ok_of_bind h
  exact hk

end Newest

/-! ## §5. The cache. -/

namespace Resolver

section Cache

variable {config : Config} {s : Resolver} {identity : Identity} {entry : Cached}

/-- An entry that is found is in the cache. -/
theorem mem_of_get (h : s.get identity = some entry) : (identity, entry) ∈ s.cache := by
  obtain ⟨row, hrow, rfl⟩ := Option.map_eq_some_iff.mp h
  have hid : row.1 = identity := by simpa using List.find?_some hrow
  rw [← hid]
  exact List.mem_of_find?_eq_some hrow

/-- A dictionary has one entry for each key. -/
theorem get_of_mem (hkeys : (s.cache.map (·.1)).Nodup) (h : (identity, entry) ∈ s.cache) :
    s.get identity = some entry := by
  unfold get
  cases hf : s.cache.find? fun row => row.1 = identity with
  | none =>
    have := List.find?_eq_none.mp hf _ h
    simp at this
  | some row =>
    have hid : row.1 = identity := by simpa using List.find?_some hf
    have hrow := List.mem_of_find?_eq_some hf
    have hsame : row = (identity, entry) := List.inj_on_of_nodup_map hkeys hrow h hid
    rw [hsame]
    rfl

/-- What is in the cache after `remember` was there before, or is the new entry. -/
theorem mem_remember {row : Identity × Cached} (h : row ∈ (s.remember config identity entry).cache) :
    row = (identity, entry) ∨ row ∈ s.cache ∧ row.1 ≠ identity := by
  have hrow := List.mem_of_mem_drop h
  rcases List.mem_append.mp hrow with hother | hnew
  · right
    simpa [others] using hother
  · left
    exact List.mem_singleton.mp hnew

/-- With any room at all the new entry is kept. -/
theorem remember_self (hcap : 0 < config.capacity) :
    (identity, entry) ∈ (s.remember config identity entry).cache := by
  show _ ∈ (s.others identity ++ [(identity, entry)]).drop _
  rw [List.drop_append_of_le_length (by simp; omega)]
  simp

/-- An entry of another identity is kept, or is one that `remember` pushes out. -/
theorem remember_other (entry : Cached) {row : Identity × Cached} (h : row ∈ s.cache) (hne : row.1 ≠ identity) :
    row ∈ (s.remember config identity entry).cache ∨ row ∈ s.evicted config identity := by
  have hother : row ∈ s.others identity := List.mem_filter.mpr ⟨h, by simpa using hne⟩
  rw [← List.take_append_drop ((s.others identity).length + 1 - config.capacity)
    (s.others identity)] at hother
  rcases List.mem_append.mp hother with hout | hin
  · right
    exact hout
  · left
    show row ∈ (s.others identity ++ [(identity, entry)]).drop _
    rw [List.drop_append]
    apply List.mem_append_left
    simpa using hin

/-- Remembering keeps one entry for each identity. -/
theorem remember_keys (hkeys : (s.cache.map (·.1)).Nodup) :
    ((s.remember config identity entry).cache.map (·.1)).Nodup := by
  have hall : ((s.others identity ++ [(identity, entry)]).map (·.1)).Nodup := by
    rw [List.map_append, List.nodup_append]
    refine ⟨List.Nodup.sublist (List.Sublist.map _ List.filter_sublist) hkeys,
      List.nodup_singleton _, ?_⟩
    intro id hid id' hid'
    obtain ⟨row, hrow, rfl⟩ := List.mem_map.mp hid
    have hne : row.1 ≠ identity := by simpa using (List.mem_filter.mp hrow).2
    rw [List.mem_singleton.mp hid']
    exact hne
  exact List.Nodup.sublist (List.Sublist.map _ (List.drop_sublist _ _)) hall

/-- The cache never has more entries than its capacity. -/
theorem remember_size : (s.remember config identity entry).cache.length ≤ config.capacity := by
  show ((s.others identity ++ [(identity, entry)]).drop _).length ≤ _
  rw [List.length_drop]
  omega

/-- Remembering an identity that is in the cache pushes nothing out. -/
theorem evicted_of_mem {old : Cached} (hsize : s.cache.length ≤ config.capacity)
    (h : (identity, old) ∈ s.cache) : s.evicted config identity = [] := by
  have hless : (s.others identity).length < s.cache.length := by
    apply List.length_filter_lt_length_iff_exists.mpr
    exact ⟨_, h, by simp⟩
  unfold evicted
  rw [show (s.others identity).length + 1 - config.capacity = 0 by omega]
  rfl

end Cache

/-! ## §6. One lookup each, and room for no more. -/

/-- The two dictionaries are dictionaries, and within capacity. -/
structure Shape (config : Config) (s : Resolver) : Prop where
  keys : (s.cache.map (·.1)).Nodup
  cacheSize : s.cache.length ≤ config.capacity
  lookups : (s.pending.map (·.identity)).Nodup
  pendingSize : s.pending.length ≤ config.capacity

/-- `start_lookup` joins the lookup of the identity, or adds one where there is none. -/
theorem startLookup_cases {config : Config} {s s' : Resolver} {identity : Identity}
    {floor : Option Mutable} {task : Nat}
    (h : s.startLookup config identity floor = .ok (s', task)) :
    (s' = s ∧ ∃ l ∈ s.pending, l.identity = identity ∧ l.task = task) ∨
      ((∀ l ∈ s.pending, l.identity ≠ identity) ∧ s.pending.length < config.capacity ∧
        task = s.tasks ∧
        s' = { s with
          pending := s.pending ++ [⟨s.tasks, identity, floor, false⟩], tasks := s.tasks + 1 }) := by
  unfold startLookup at h
  split at h
  · rename_i l hl
    obtain ⟨rfl, rfl⟩ := Prod.mk.inj (Except.ok.inj h)
    left
    exact ⟨rfl, l, List.mem_of_find?_eq_some hl, by simpa using List.find?_some hl, rfl⟩
  · rename_i hnone
    split at h
    · cases h
    · rename_i hroom
      obtain ⟨rfl, rfl⟩ := Prod.mk.inj (Except.ok.inj h)
      right
      refine ⟨?_, by omega, rfl, rfl⟩
      intro l hl
      simpa using List.find?_eq_none.mp hnone l hl

namespace Shape

variable {config : Config} {s : Resolver} {identity : Identity}

/-- The resolver at the start. -/
theorem new (config : Config) : Shape config Resolver.new where
  keys := List.nodup_nil
  cacheSize := Nat.zero_le _
  lookups := List.nodup_nil
  pendingSize := Nat.zero_le _

/-- Remembering keeps the shape. -/
theorem remember (h : Shape config s) (entry : Cached) :
    Shape config (s.remember config identity entry) where
  keys := remember_keys h.keys
  cacheSize := remember_size
  lookups := h.lookups
  pendingSize := h.pendingSize

/-- So does blocking an identity. -/
theorem block (h : Shape config s) (record : Option Mutable) (e : Failure) :
    Shape config (s.block config identity record e) := by
  have hr : Shape config (s.remember config identity ⟨s.now + config.negativeTtl, record, some e⟩) :=
    h.remember _
  exact ⟨hr.keys, hr.cacheSize, hr.lookups, hr.pendingSize⟩

/-- So does letting it go again. -/
theorem unblock (h : Shape config s) (record : Option Mutable) :
    Shape config (s.unblock config identity record) := by
  have hr : ∀ entry, Shape config (s.remember config identity entry) := fun _ => h.remember _
  exact ⟨(hr _).keys, (hr _).cacheSize, h.lookups, h.pendingSize⟩

/-- So does starting a lookup. -/
theorem startLookup {s' : Resolver} {floor : Option Mutable} {task : Nat} (h : Shape config s)
    (hs : s.startLookup config identity floor = .ok (s', task)) : Shape config s' := by
  rcases startLookup_cases hs with ⟨rfl, -⟩ | ⟨hnew, hroom, -, rfl⟩
  · exact h
  · refine ⟨h.keys, h.cacheSize, ?_, ?_⟩
    · show ((s.pending ++ [_]).map Lookup.identity).Nodup
      rw [List.map_append, List.nodup_append]
      refine ⟨h.lookups, List.nodup_singleton _, ?_⟩
      intro id hid id' hid'
      obtain ⟨l, hl, rfl⟩ := List.mem_map.mp hid
      rw [List.mem_singleton.mp hid']
      exact hnew l hl
    · show (s.pending ++ [_]).length ≤ _
      rw [List.length_append]
      exact hroom

/-- So does waiting for one. -/
theorem wait (h : Shape config s) (known floor : Option Mutable) :
    Shape config (s.wait config identity known floor) := by
  unfold Resolver.wait
  split
  · rename_i s' task hs
    have hs' := h.startLookup hs
    exact ⟨hs'.keys, hs'.cacheSize, hs'.lookups, hs'.pendingSize⟩
  · exact h

/-- So does refreshing an entry. -/
theorem refreshing (h : Shape config s) (floor : Option Mutable) :
    Shape config (s.refreshing config identity floor) := by
  unfold Resolver.refreshing
  split
  · rename_i hs
    exact h.startLookup hs
  · exact h

/-- So does serving from the cache. -/
theorem serve (h : Shape config s) (known : Option Mutable) (refresh : Bool) (entry : Cached) :
    Shape config (s.serve config identity known refresh entry) := by
  unfold Resolver.serve
  split
  · exact h
  split
  · exact ⟨h.keys, h.cacheSize, h.lookups, h.pendingSize⟩
  split
  · have hr : Shape config (s.refreshing config identity entry.record) := h.refreshing _
    exact ⟨hr.keys, hr.cacheSize, hr.lookups, hr.pendingSize⟩
  · exact h.wait known entry.record

/-- So does a call of `resolve`. -/
theorem resolve (h : Shape config s) (wire : Wire) (known : Option Mutable) (refresh : Bool) :
    Shape config (s.resolve wire config identity known refresh) := by
  unfold Resolver.resolve
  split
  · split
    · exact (h.remember _).serve _ _ _
    · split
      · exact h.block _ _
      · exact h
  · split
    · exact (h.remember _).serve _ _ _
    · exact h.wait _ _

/-- So does the end of a lookup. -/
theorem settle (h : Shape config s) (wire : Wire) (l : Lookup)
    (answer : Except Failure (Option Mutable)) : Shape config (s.settle wire config l answer) := by
  -- whatever is remembered, one lookup less is pending
  have hpop : ∀ {after : Resolver} {finished : List (Nat × Except Failure (Option Mutable))},
      Shape config after →
      Shape config { after with
        pending := after.pending.filter fun other => other.identity ≠ l.identity, finished } := by
    intro after finished hafter
    refine ⟨hafter.keys, hafter.cacheSize, ?_, ?_⟩
    · exact List.Nodup.sublist (List.Sublist.map _ List.filter_sublist) hafter.lookups
    · exact le_trans (List.length_filter_le _ _) hafter.pendingSize
  unfold Resolver.settle
  dsimp only
  split
  · exact hpop (h.unblock _)
  · split
    · exact hpop (h.block _ _)
    · exact hpop h

/-- So does taking a place for one. -/
theorem acquired (h : Shape config s) (identity : Identity) :
    Shape config { s with pending := s.pending.map (·.acquire identity) } := by
  refine ⟨h.keys, h.cacheSize, ?_, by simpa using h.pendingSize⟩
  have hsame : Lookup.identity ∘ (·.acquire identity) = Lookup.identity := by
    funext l
    dsimp only [Function.comp, Lookup.acquire]
    split <;> rfl
  show ((s.pending.map _).map Lookup.identity).Nodup
  rw [List.map_map, hsame]
  exact h.lookups

/-- **Every event keeps the shape.** -/
theorem step {wire : Wire} {s' : Resolver} {e : Event} (h : Shape config s)
    (hs : s.step wire config e = some s') : Shape config s' := by
  unfold Resolver.step at hs
  cases e with
  | resolve identity known refresh =>
    obtain rfl := Option.some.inj hs
    exact h.resolve wire known refresh
  | acquired identity =>
    dsimp only at hs
    split at hs
    · obtain rfl := Option.some.inj hs
      exact h.acquired identity
    · cases hs
  | answered identity answer =>
    dsimp only at hs
    split at hs
    · split at hs
      · obtain rfl := Option.some.inj hs
        exact h.settle wire _ answer
      · cases hs
    · cases hs
  | timedOut identity =>
    obtain ⟨l, -, rfl⟩ := Option.map_eq_some_iff.mp hs
    exact h.settle wire l _
  | resumed c =>
    dsimp only at hs
    split at hs
    · unfold Resolver.wake at hs
      split at hs
      · obtain rfl := Option.some.inj hs
        exact ⟨h.keys, h.cacheSize, h.lookups, h.pendingSize⟩
      · obtain rfl := Option.some.inj hs
        exact ⟨h.keys, h.cacheSize, h.lookups, h.pendingSize⟩
      · cases hs
    · cases hs
  | disconnected c =>
    dsimp only at hs
    split at hs
    · obtain rfl := Option.some.inj hs
      exact ⟨h.keys, h.cacheSize, h.lookups, h.pendingSize⟩
    · cases hs
  | elapsed ticks =>
    obtain rfl := Option.some.inj hs
    exact ⟨h.keys, h.cacheSize, h.lookups, h.pendingSize⟩

end Shape

/-- **One lookup for each identity, and both maps within capacity**, in every state of every
    run. -/
theorem bounded (wire : Wire) (config : Config) (events : List Event) (s : Resolver)
    (hrun : run (step wire config) new events = some s) : Shape config s :=
  run_keeps (fun _ _ _ h hs => h.step hs) events new s (Shape.new config) hrun

/-! ## §7. Undisturbed runs. -/

/-- A result that `except Conflict` catches. -/
def raisesConflict {α : Type} : Except Failure α → Bool
  | .error e => e.isConflict
  | .ok _ => false

/-- Does the engine's answer leave an entry for the identity? -/
def lands (wire : Wire) (identity : Identity) : Except Failure (Option Mutable) → Bool
  | .ok record => (belongsIfAny wire identity record).isOk
  | .error e => e.isConflict

/-- The identity that the step may put into the cache. -/
def touched (wire : Wire) : Event → Option Identity
  | .resolve identity (some k) _ => if (belongs wire identity k).isOk then some identity else none
  | .answered identity answer => if lands wire identity answer then some identity else none
  | _ => none

/-- The identity for which the step records a conflict. -/
def clashing (wire : Wire) (s : Resolver) : Event → Option Identity
  | .resolve identity (some k) _ =>
    if raisesConflict (newest wire identity (s.recorded identity) (some k)) then some identity
    else none
  | .answered identity answer =>
    match s.lookup identity with
    | some l => if raisesConflict (s.outcome wire l answer) then some identity else none
    | none => none
  | _ => none

/-- A task that returned a record. -/
def returnedRecord : Except Failure (Option Mutable) → Bool
  | .ok record => record.isSome
  | .error _ => false

/-- **The steps that keep the promise.**  None evicts an entry while a caller awaits the lookup
    of that identity and only the entry, not the floor of the lookup, covers what the caller
    knows; and none records a conflict for an identity while a caller whose task has already
    returned a record for it has yet to resume. -/
structure Undisturbed (wire : Wire) (config : Config) (s : Resolver) (e : Event) : Prop where
  floors : ∀ identity ∈ touched wire e, ∀ row ∈ s.evicted config identity, ∀ l ∈ s.pending,
    l.identity = row.1 → ∀ c ∈ s.callers, c.task = l.task → Above l.floor c.known
  conflicts : ∀ identity ∈ clashing wire s e, ∀ c ∈ s.callers, c.identity = identity →
    ∀ done ∈ s.finished, done.1 = c.task → returnedRecord done.2 = false

instance (wire : Wire) (config : Config) (s : Resolver) (e : Event) :
    Decidable (Undisturbed wire config s e) :=
  decidable_of_iff (_ ∧ _) ⟨fun h => ⟨h.1, h.2⟩, fun h => ⟨h.floors, h.conflicts⟩⟩

structure Inv (wire : Wire) (config : Config) (s : Resolver) : Prop where
  shape : Shape config s
  entries : ∀ row ∈ s.cache, ProperIfAny wire row.1 row.2.record
  floors : ∀ l ∈ s.pending, ProperIfAny wire l.identity l.floor
  tasks : ∀ l ∈ s.pending, l.task < s.tasks
  distinct : ∀ l ∈ s.pending, ∀ l' ∈ s.pending, l.task = l'.task → l = l'
  /-- A task that is done is no longer pending. -/
  done : ∀ d ∈ s.finished, d.1 < s.tasks ∧ ∀ l ∈ s.pending, l.task ≠ d.1
  awaited : ∀ c ∈ s.callers, c.task < s.tasks ∧
    ∀ l ∈ s.pending, l.task = c.task → l.identity = c.identity
  /-- What a waiting caller knows is covered by the floor of its lookup or by the cache. -/
  held : ∀ c ∈ s.callers, ∀ l ∈ s.pending, l.task = c.task →
    Above l.floor c.known ∨ ∃ entry, (c.identity, entry) ∈ s.cache ∧ Above entry.record c.known
  /-- What its task returned covers it, and no conflict stands recorded. -/
  settled : ∀ c ∈ s.callers, ∀ record, (c.task, .ok record) ∈ s.finished →
    Above record c.known ∧ ProperIfAny wire c.identity record ∧
      (record.isSome = true → c.identity ∉ s.blocked)
  /-- A recorded conflict stands in the cache. -/
  standing : ∀ identity ∈ s.blocked,
    ∃ entry, (identity, entry) ∈ s.cache ∧ entry.conflict.isSome = true
  answers : ∀ r ∈ s.returned, Above r.record r.known ∧ ProperIfAny wire r.identity r.record ∧
    (r.record.isSome = true → r.blocked = false)

namespace Inv

variable {wire : Wire} {config : Config} {s : Resolver} {identity : Identity}

/-- The resolver at the start. -/
theorem new (wire : Wire) (config : Config) : Inv wire config Resolver.new := by
  constructor
  · exact Shape.new config
  all_goals
    intro x hx
    cases hx

/-- **A new entry** that is proper and not below the old one.  `blocked` may gain the identity
    itself, with a conflict in the entry, and loses whatever is pushed out. -/
theorem cached (h : Inv wire config s) {entry : Cached} {blocked : List Identity}
    (hproper : ProperIfAny wire identity entry.record)
    (hmono : ∀ old, (identity, old) ∈ s.cache → Above entry.record old.record)
    (hsafe : ∀ row ∈ s.evicted config identity, ∀ l ∈ s.pending, l.identity = row.1 →
      ∀ c ∈ s.callers, c.task = l.task → Above l.floor c.known)
    (hothers : ∀ other ∈ blocked, other ≠ identity →
      other ∈ (s.remember config identity entry).blocked)
    (hself : identity ∈ blocked → entry.conflict.isSome = true ∧ 0 < config.capacity)
    (hfresh : identity ∈ blocked → identity ∈ s.blocked ∨ ∀ c ∈ s.callers, c.identity = identity →
      ∀ done ∈ s.finished, done.1 = c.task → returnedRecord done.2 = false) :
    Inv wire config { s.remember config identity entry with blocked := blocked } := by
  have hshape : Shape config (s.remember config identity entry) := h.shape.remember entry
  refine ⟨⟨hshape.keys, hshape.cacheSize, hshape.lookups, hshape.pendingSize⟩, ?_, h.floors,
    h.tasks, h.distinct, h.done, h.awaited, ?_, ?_, ?_, h.answers⟩
  · intro row hrow
    rcases mem_remember hrow with rfl | ⟨hold, -⟩
    · exact hproper
    · exact h.entries row hold
  · intro c hc l hl htask
    rcases h.held c hc l hl htask with hfloor | ⟨old, hold, habove⟩
    · left
      exact hfloor
    · by_cases hid : c.identity = identity
      · right
        have hroom : 0 < config.capacity :=
          lt_of_lt_of_le (List.length_pos_of_mem hl) h.shape.pendingSize
        rw [hid] at hold ⊢
        exact ⟨entry, remember_self hroom, (hmono old hold).trans habove⟩
      · rcases remember_other entry hold hid with hkept | hout
        · right
          exact ⟨old, hkept, habove⟩
        · left
          exact hsafe _ hout l hl ((h.awaited c hc).2 l hl htask) c hc htask.symm
  · intro c hc record hdone
    obtain ⟨habove, hrecord, hblocked⟩ := h.settled c hc record hdone
    refine ⟨habove, hrecord, ?_⟩
    intro hsome hmem
    by_cases hid : c.identity = identity
    · rcases hfresh (hid ▸ hmem) with hold | hnone
      · exact hblocked hsome (hid ▸ hold)
      · have := hnone c hc hid _ hdone rfl
        rw [show returnedRecord (.ok record) = record.isSome from rfl, hsome] at this
        cases this
    · exact hblocked hsome (List.mem_filter.mp (hothers _ hmem hid)).1
  · intro other hother
    by_cases hid : other = identity
    · subst hid
      obtain ⟨hconflict, hroom⟩ := hself hother
      exact ⟨entry, remember_self hroom, hconflict⟩
    · obtain ⟨hold, hin⟩ := List.mem_filter.mp (hothers other hother hid)
      obtain ⟨old, hmem, hconflict⟩ := h.standing other hold
      rcases remember_other entry hmem hid with hkept | hout
      · exact ⟨old, hkept, hconflict⟩
      · have hgone : other ∈ (s.evicted config identity).map (·.1) := List.mem_map.mpr ⟨_, hout, rfl⟩
        simp [hgone] at hin

/-- Where the identity has an entry there is room. -/
theorem room (h : Inv wire config s) {row : Identity × Cached} (hrow : row ∈ s.cache) :
    0 < config.capacity :=
  lt_of_lt_of_le (List.length_pos_of_mem hrow) h.shape.cacheSize

/-- Remembering a record that is proper, above the one before and blocked no less keeps the
invariant. -/
theorem remember (h : Inv wire config s) {entry : Cached}
    (hproper : ProperIfAny wire identity entry.record)
    (hmono : ∀ old, (identity, old) ∈ s.cache → Above entry.record old.record)
    (hkeep : ∀ old, (identity, old) ∈ s.cache → old.conflict.isSome = true →
      entry.conflict.isSome = true)
    (hsafe : ∀ row ∈ s.evicted config identity, ∀ l ∈ s.pending, l.identity = row.1 →
      ∀ c ∈ s.callers, c.task = l.task → Above l.floor c.known) :
    Inv wire config (s.remember config identity entry) := by
  apply h.cached hproper hmono hsafe (fun _ hother _ => hother)
  · intro hmem
    obtain ⟨old, hold, hconflict⟩ := h.standing identity (List.mem_filter.mp hmem).1
    exact ⟨hkeep old hold hconflict, h.room hold⟩
  · intro hmem
    left
    exact (List.mem_filter.mp hmem).1

/-- An identity with a conflict is blocked. -/
theorem block (h : Inv wire config s) {record : Option Mutable} {e : Failure}
    (hroom : 0 < config.capacity) (hproper : ProperIfAny wire identity record)
    (hmono : ∀ old, (identity, old) ∈ s.cache → Above record old.record)
    (hsafe : ∀ row ∈ s.evicted config identity, ∀ l ∈ s.pending, l.identity = row.1 →
      ∀ c ∈ s.callers, c.task = l.task → Above l.floor c.known)
    (hnone : ∀ c ∈ s.callers, c.identity = identity →
      ∀ done ∈ s.finished, done.1 = c.task → returnedRecord done.2 = false) :
    Inv wire config (s.block config identity record e) := by
  apply h.cached hproper hmono hsafe
  · intro other hother hne
    exact (List.mem_cons.mp hother).resolve_left hne
  · intro _
    exact ⟨rfl, hroom⟩
  · intro _
    right
    exact hnone

/-- It is let go by a record above the one in the cache. -/
theorem unblock (h : Inv wire config s) {record : Option Mutable}
    (hproper : ProperIfAny wire identity record)
    (hmono : ∀ old, (identity, old) ∈ s.cache → Above record old.record)
    (hsafe : ∀ row ∈ s.evicted config identity, ∀ l ∈ s.pending, l.identity = row.1 →
      ∀ c ∈ s.callers, c.task = l.task → Above l.floor c.known) :
    Inv wire config (s.unblock config identity record) := by
  have habsent : identity ∉ (s.unblock config identity record).blocked := by
    intro hmem
    have hne := (List.mem_filter.mp hmem).2
    simp at hne
  apply h.cached hproper hmono hsafe
  · intro other hother _
    exact (List.mem_filter.mp hother).1
  · intro hmem
    exact absurd hmem habsent
  · intro hmem
    exact absurd hmem habsent

/-- A caller is given what is above the record that it knows. -/
theorem give (h : Inv wire config s) {known record : Option Mutable} (habove : Above record known)
    (hproper : ProperIfAny wire identity record)
    (hblocked : record.isSome = true → identity ∉ s.blocked) :
    Inv wire config (s.give identity known record) := by
  refine ⟨⟨h.shape.keys, h.shape.cacheSize, h.shape.lookups, h.shape.pendingSize⟩, h.entries,
    h.floors, h.tasks, h.distinct, h.done, h.awaited, h.held, h.settled, h.standing, ?_⟩
  intro r hr
  rcases List.mem_append.mp hr with hold | hnew
  · exact h.answers r hold
  · rw [List.mem_singleton.mp hnew]
    exact ⟨habove, hproper, fun hsome => by simpa using hblocked hsome⟩

/-- A lookup that starts is nobody's yet. -/
theorem startLookup {s' : Resolver} {floor : Option Mutable} {task : Nat} (h : Inv wire config s)
    (hproper : ProperIfAny wire identity floor)
    (hs : s.startLookup config identity floor = .ok (s', task)) :
    Inv wire config s' ∧ s'.cache = s.cache ∧ s'.callers = s.callers ∧ s'.finished = s.finished ∧
      s'.blocked = s.blocked ∧
      ∃ l ∈ s'.pending, l.task = task ∧ l.identity = identity := by
  have hshape := h.shape.startLookup hs
  rcases startLookup_cases hs with ⟨rfl, l, hl, hid, htask⟩ | ⟨hnew, -, rfl, rfl⟩
  · exact ⟨h, rfl, rfl, rfl, rfl, l, hl, htask, hid⟩
  · refine ⟨⟨hshape, h.entries, ?_, ?_, ?_, ?_, ?_, ?_, h.settled, h.standing, h.answers⟩,
      rfl, rfl, rfl, rfl, ⟨s.tasks, identity, floor, false⟩, by simp, rfl, rfl⟩
    · intro l hl
      rcases List.mem_append.mp hl with hl | hl
      · exact h.floors l hl
      · rw [List.mem_singleton.mp hl]
        exact hproper
    · intro l hl
      show l.task < s.tasks + 1
      rcases List.mem_append.mp hl with hl | hl
      · have := h.tasks l hl
        omega
      · rw [List.mem_singleton.mp hl]
        exact Nat.lt_succ_self _
    · -- the number of the new task is its own
      intro l hl l' hl' hsame
      rcases List.mem_append.mp hl with hl | hl <;> rcases List.mem_append.mp hl' with hl' | hl'
      · exact h.distinct l hl l' hl' hsame
      · rw [List.mem_singleton.mp hl'] at hsame
        exact absurd hsame (Nat.ne_of_lt (h.tasks l hl))
      · rw [List.mem_singleton.mp hl] at hsame
        exact absurd hsame.symm (Nat.ne_of_lt (h.tasks l' hl'))
      · rw [List.mem_singleton.mp hl, List.mem_singleton.mp hl']
    · intro d hd
      obtain ⟨hlt, hne⟩ := h.done d hd
      refine ⟨Nat.lt_succ_of_lt hlt, ?_⟩
      intro l hl
      rcases List.mem_append.mp hl with hl | hl
      · exact hne l hl
      · rw [List.mem_singleton.mp hl]
        exact Nat.ne_of_gt hlt
    · intro c hc
      obtain ⟨hlt, hsame⟩ := h.awaited c hc
      refine ⟨Nat.lt_succ_of_lt hlt, ?_⟩
      intro l hl htask
      rcases List.mem_append.mp hl with hl | hl
      · exact hsame l hl htask
      · rw [List.mem_singleton.mp hl] at htask
        exact absurd htask (Nat.ne_of_gt hlt)
    · intro c hc l hl htask
      rcases List.mem_append.mp hl with hl | hl
      · exact h.held c hc l hl htask
      · rw [List.mem_singleton.mp hl] at htask
        exact absurd htask (Nat.ne_of_gt (h.awaited c hc).1)

/-- Refreshing an entry keeps the invariant, and blocks nobody. -/
theorem refreshing (h : Inv wire config s) {floor : Option Mutable}
    (hproper : ProperIfAny wire identity floor) :
    Inv wire config (s.refreshing config identity floor) ∧
      (s.refreshing config identity floor).blocked = s.blocked := by
  unfold Resolver.refreshing
  split
  · rename_i hs
    obtain ⟨hinv, -, -, -, hblocked, -⟩ := h.startLookup hproper hs
    exact ⟨hinv, hblocked⟩
  · exact ⟨h, rfl⟩

/-- A caller joins a lookup: what it knows is in the cache. -/
theorem wait (h : Inv wire config s) {known floor : Option Mutable}
    (hproper : ProperIfAny wire identity floor)
    (hknown : 0 < config.capacity → known = none ∨
      ∃ entry, (identity, entry) ∈ s.cache ∧ Above entry.record known) :
    Inv wire config (s.wait config identity known floor) := by
  unfold Resolver.wait
  split
  · rename_i s' task hs
    obtain ⟨hinv, hcache, -, -, -, l, hl, htask, hid⟩ := h.startLookup hproper hs
    have hroom : 0 < config.capacity :=
      lt_of_lt_of_le (List.length_pos_of_mem hl) hinv.shape.pendingSize
    refine ⟨⟨hinv.shape.keys, hinv.shape.cacheSize, hinv.shape.lookups, hinv.shape.pendingSize⟩,
      hinv.entries, hinv.floors, hinv.tasks, hinv.distinct, hinv.done, ?_, ?_, ?_, hinv.standing,
      hinv.answers⟩
    · intro c hc
      rcases List.mem_append.mp hc with hc | hc
      · exact hinv.awaited c hc
      · rw [List.mem_singleton.mp hc]
        refine ⟨htask ▸ hinv.tasks l hl, ?_⟩
        intro l' hl' htask'
        rw [hinv.distinct l' hl' l hl (htask'.trans htask.symm)]
        exact hid
    · intro c hc l' hl' htask'
      rcases List.mem_append.mp hc with hc | hc
      · exact hinv.held c hc l' hl' htask'
      · rw [List.mem_singleton.mp hc]
        rcases hknown hroom with rfl | ⟨entry, hentry, habove⟩
        · left
          exact above_none _
        · right
          exact ⟨entry, hcache ▸ hentry, habove⟩
    · intro c hc record hdone
      rcases List.mem_append.mp hc with hc | hc
      · exact hinv.settled c hc record hdone
      · -- the task it joins is pending, so it is not done
        rw [List.mem_singleton.mp hc] at hdone
        exact absurd htask ((hinv.done _ hdone).2 l hl)
  · exact h

/-- The rest of `resolve`, when the entry it looks at is the one in the cache. -/
theorem serve (h : Inv wire config s) {known : Option Mutable} {refresh : Bool} {entry : Cached}
    (hmem : 0 < config.capacity → (identity, entry) ∈ s.cache)
    (hproper : ProperIfAny wire identity entry.record) (hknown : Above entry.record known) :
    Inv wire config (s.serve config identity known refresh entry) := by
  -- an entry without a conflict is the entry of an identity that is not blocked
  have hclear : entry.conflict = none → identity ∉ s.blocked := by
    intro hnone hblocked
    obtain ⟨old, hold, hconflict⟩ := h.standing identity hblocked
    have hsame : (identity, old) = (identity, entry) :=
      List.inj_on_of_nodup_map h.shape.keys hold (hmem (h.room hold)) rfl
    rw [(Prod.mk.inj hsame).2, hnone] at hconflict
    cases hconflict
  unfold Resolver.serve
  split
  · exact h
  split
  · rename_i hfresh
    exact h.give hknown hproper fun _ => hclear hfresh.2.1
  split
  · rename_i hserve
    obtain ⟨hinv, hblocked⟩ :
        Inv wire config (s.refreshing config identity entry.record) ∧ _ := h.refreshing hproper
    apply hinv.give hknown hproper
    intro _
    rw [hblocked]
    exact hclear hserve.2.2
  · apply h.wait hproper
    intro hroom
    right
    exact ⟨entry, hmem hroom, hknown⟩

/-- So does a call of `resolve`, where the lookup it joins has a floor that is high enough. -/
theorem resolve (h : Inv wire config s) {known : Option Mutable} {refresh : Bool}
    (hok : Undisturbed wire config s (.resolve identity known refresh)) :
    Inv wire config (s.resolve wire config identity known refresh) := by
  have hrecorded : ∀ {old : Cached}, (identity, old) ∈ s.cache → s.get identity = some old :=
    fun hold => get_of_mem h.shape.keys hold
  unfold Resolver.resolve
  cases known with
  | some k =>
    dsimp only
    cases hn : newest wire identity (s.recorded identity) (some k) with
    | ok record =>
      dsimp only
      obtain ⟨hproper, hprevious, hknown⟩ := newest_ok hn
      have htouched : identity ∈ touched wire (.resolve identity (some k) refresh) := by
        show (if _ then some identity else none) = some identity
        rw [belongs_of_newest hn]
        rfl
      have hinv : Inv wire config (s.remember config identity (s.merged identity record)) := by
        apply h.remember hproper
        · intro old hold
          have hold' : s.recorded identity = old.record := by
            unfold recorded
            rw [hrecorded hold]
            rfl
          rw [hold'] at hprevious
          exact hprevious
        · intro old hold hconflict
          show ((s.get identity).bind _).isSome = true
          rw [hrecorded hold]
          exact hconflict
        · exact hok.floors identity htouched
      exact hinv.serve remember_self hproper hknown
    | error e =>
      dsimp only
      by_cases he : e.isConflict = true
      · rw [if_pos he]
        obtain ⟨hsome, hbelongs⟩ := newest_conflict hn he
        have htouched : identity ∈ touched wire (.resolve identity (some k) refresh) := by
          show (if _ then some identity else none) = some identity
          rw [hbelongs]
          rfl
        have hclash : identity ∈ clashing wire s (.resolve identity (some k) refresh) := by
          show (if raisesConflict (newest wire identity (s.recorded identity) (some k)) = true
            then some identity else none) = some identity
          rw [hn]
          exact if_pos he
        -- there is a cached record that the known one clashes with
        obtain ⟨old, hold⟩ : ∃ old, s.get identity = some old := by
          cases hg : s.get identity with
          | none =>
            unfold recorded at hsome
            rw [hg] at hsome
            cases hsome
          | some old => exact ⟨old, rfl⟩
        have hrec : s.recorded identity = old.record := by
          unfold recorded
          rw [hold]
          rfl
        apply h.block (h.room (mem_of_get hold))
        · rw [hrec]
          exact h.entries _ (mem_of_get hold)
        · intro other hother
          rw [hrecorded hother] at hold
          rw [hrec, Option.some.inj hold]
          exact Above.refl _
        · exact hok.floors identity htouched
        · exact hok.conflicts identity hclash
      · rw [if_neg he]
        exact h
  | none =>
    dsimp only
    cases hg : s.get identity with
    | some entry =>
      dsimp only
      have hmem := mem_of_get hg
      have hproper := h.entries _ hmem
      have hsame : ∀ {old : Cached}, (identity, old) ∈ s.cache → old = entry := by
        intro old hold
        rw [hrecorded hold] at hg
        exact Option.some.inj hg
      have hinv : Inv wire config (s.remember config identity entry) := by
        apply h.remember hproper
        · intro old hold
          rw [hsame hold]
          exact Above.refl _
        · intro old hold hconflict
          rw [← hsame hold]
          exact hconflict
        · -- the entry only moves to the end
          rw [evicted_of_mem h.shape.cacheSize hmem]
          intro row hrow
          cases hrow
      exact hinv.serve remember_self hproper (above_none _)
    | none =>
      dsimp only
      apply h.wait
      · intro v hv
        cases hv
      · intro _
        left
        rfl

/-- The result of a lookup that completes is proper, and below neither its floor nor the cache. -/
theorem outcome_ok {l : Lookup} {answer : Except Failure (Option Mutable)}
    {record : Option Mutable} (ho : s.outcome wire l answer = .ok record) :
    lands wire l.identity answer = true ∧ ProperIfAny wire l.identity record ∧
      Above record l.floor ∧ Above record (s.recorded l.identity) := by
  obtain ⟨found, rfl, hrest⟩ := ok_of_bind ho
  obtain ⟨base, hbase, hlast⟩ := ok_of_bind hrest
  obtain ⟨-, hfloor, hrecorded⟩ := newest_ok hbase
  obtain ⟨hproper, habove, -⟩ := newest_ok hlast
  refine ⟨?_, hproper, habove.trans hfloor, habove.trans hrecorded⟩
  obtain ⟨_, -, hlast⟩ := ok_of_bind hlast
  obtain ⟨_, hfound, -⟩ := ok_of_bind hlast
  show (belongsIfAny wire l.identity found).isOk = true
  rw [hfound]
  rfl

/-- A lookup that ends in a conflict leaves an entry where its answer would have, or where one
    was already. -/
theorem outcome_conflict {l : Lookup} {answer : Except Failure (Option Mutable)} {e : Failure}
    (ho : s.outcome wire l answer = .error e) (he : e.isConflict = true) :
    lands wire l.identity answer = true ∨ (s.recorded l.identity).isSome = true := by
  obtain rfl | ⟨found, rfl, hrest⟩ := error_of_bind ho
  · left
    exact he
  obtain ho | ⟨base, -, ho⟩ := error_of_bind hrest
  · -- the floor clashes with the cached record
    right
    cases hr : s.recorded l.identity with
    | some _ => rfl
    | none =>
      rw [hr] at ho
      obtain ho | ⟨_, -, ho⟩ := error_of_bind ho
      · rw [belongsIfAny_error ho] at he
        cases he
      · cases hf : l.floor with
        | none =>
          rw [hf] at ho
          cases ho
        | some _ =>
          rw [hf] at ho
          cases ho
  · left
    cases found with
    | none => rfl
    | some k =>
      show (belongs wire l.identity k).isOk = true
      rw [(newest_conflict ho he).2]
      rfl

/-- A task is done: its lookup is no longer pending, its result is kept. -/
theorem finish (h : Inv wire config s) {l : Lookup} (hl : l ∈ s.pending)
    {result : Except Failure (Option Mutable)}
    (hresult : ∀ record, result = .ok record →
      ProperIfAny wire l.identity record ∧ (record.isSome = true → l.identity ∉ s.blocked) ∧
        ∀ c ∈ s.callers, c.task = l.task → Above record c.known) :
    Inv wire config { s with
      pending := s.pending.filter fun other => other.identity ≠ l.identity
      finished := s.finished ++ [(l.task, result)] } := by
  have hstill : ∀ {other : Lookup},
      other ∈ s.pending.filter (fun other => other.identity ≠ l.identity) →
        other ∈ s.pending ∧ other.identity ≠ l.identity := by
    intro other hother
    simpa using hother
  refine ⟨⟨h.shape.keys, h.shape.cacheSize, ?_, ?_⟩, h.entries, ?_, ?_, ?_, ?_, ?_, ?_, ?_,
    h.standing, h.answers⟩
  · exact List.Nodup.sublist (List.Sublist.map _ List.filter_sublist) h.shape.lookups
  · exact le_trans (List.length_filter_le _ _) h.shape.pendingSize
  · intro other hother
    exact h.floors other (hstill hother).1
  · intro other hother
    exact h.tasks other (hstill hother).1
  · intro other hother other' hother'
    exact h.distinct other (hstill hother).1 other' (hstill hother').1
  · intro d hd
    rcases List.mem_append.mp hd with hd | hd
    · exact ⟨(h.done d hd).1, fun other hother => (h.done d hd).2 other (hstill hother).1⟩
    · rw [List.mem_singleton.mp hd]
      refine ⟨h.tasks l hl, ?_⟩
      intro other hother hsame
      exact (hstill hother).2 (congrArg Lookup.identity
        (h.distinct other (hstill hother).1 l hl hsame))
  · intro c hc
    exact ⟨(h.awaited c hc).1, fun other hother => (h.awaited c hc).2 other (hstill hother).1⟩
  · intro c hc other hother
    exact h.held c hc other (hstill hother).1
  · intro c hc record hdone
    rcases List.mem_append.mp hdone with hdone | hdone
    · exact h.settled c hc record hdone
    · obtain ⟨htask, hrecord⟩ := Prod.mk.inj (List.mem_singleton.mp hdone)
      obtain ⟨hproper, hblocked, habove⟩ := hresult record hrecord.symm
      have hid := (h.awaited c hc).2 l hl htask.symm
      rw [← hid]
      exact ⟨habove c hc htask, hproper, hblocked⟩

/-- **A lookup ends**, with a result or without. -/
theorem settle (h : Inv wire config s) {l : Lookup} (hl : l ∈ s.pending)
    {answer : Except Failure (Option Mutable)}
    (hfloors : lands wire l.identity answer = true → ∀ row ∈ s.evicted config l.identity,
      ∀ l' ∈ s.pending, l'.identity = row.1 → ∀ c ∈ s.callers, c.task = l'.task →
        Above l'.floor c.known)
    (hconflicts : raisesConflict (s.outcome wire l answer) = true →
      ∀ c ∈ s.callers, c.identity = l.identity → ∀ done ∈ s.finished, done.1 = c.task →
        returnedRecord done.2 = false) :
    Inv wire config (s.settle wire config l answer) := by
  have hrecorded : ∀ {old : Cached}, (l.identity, old) ∈ s.cache →
      s.get l.identity = some old ∧ s.recorded l.identity = old.record := by
    intro old hold
    have hget := get_of_mem h.shape.keys hold
    refine ⟨hget, ?_⟩
    unfold recorded
    rw [hget]
    rfl
  unfold Resolver.settle
  cases ho : s.outcome wire l answer with
  | ok record =>
    obtain ⟨hlands, hproper, hfloor, hcache⟩ := outcome_ok ho
    have hinv : Inv wire config (s.unblock config l.identity record) := by
      apply h.unblock hproper
      · intro old hold
        rw [(hrecorded hold).2] at hcache
        exact hcache
      · exact hfloors hlands
    apply hinv.finish hl
    intro record' hrecord
    obtain rfl : record = record' := Except.ok.inj hrecord
    refine ⟨hproper, ?_, ?_⟩
    · intro _ hmem
      have hne := (List.mem_filter.mp hmem).2
      simp at hne
    · intro c hc htask
      rcases h.held c hc l hl htask.symm with hknown | ⟨old, hold, hknown⟩
      · exact hfloor.trans hknown
      · rw [← (h.awaited c hc).2 l hl htask.symm] at hold
        rw [(hrecorded hold).2] at hcache
        exact hcache.trans hknown
  | error e =>
    dsimp only
    by_cases he : e.isConflict = true
    · rw [if_pos he]
      have hroom : 0 < config.capacity :=
        lt_of_lt_of_le (List.length_pos_of_mem hl) h.shape.pendingSize
      have hinv : Inv wire config (s.block config l.identity
          (if (s.get l.identity).isSome then s.recorded l.identity else l.floor) e) := by
        apply h.block hroom
        · cases hg : s.get l.identity with
          | none => exact h.floors l hl
          | some old =>
            have hold := mem_of_get hg
            rw [Option.isSome_some, if_pos rfl, (hrecorded hold).2]
            exact h.entries _ hold
        · intro old hold
          rw [(hrecorded hold).1, Option.isSome_some, if_pos rfl, (hrecorded hold).2]
          exact Above.refl _
        · rcases outcome_conflict ho he with hlands | hsome
          · exact hfloors hlands
          · intro row hrow
            cases hg : s.get l.identity with
            | none =>
              unfold recorded at hsome
              rw [hg] at hsome
              cases hsome
            | some old =>
              rw [evicted_of_mem h.shape.cacheSize (mem_of_get hg)] at hrow
              cases hrow
        · apply hconflicts
          rw [ho]
          exact he
      apply hinv.finish hl
      intro record hrecord
      cases hrecord
    · rw [if_neg he]
      apply h.finish hl
      intro record hrecord
      cases hrecord

/-- Callers leave. -/
theorem leave (h : Inv wire config s) (c : Caller) :
    Inv wire config { s with callers := s.callers.erase c } := by
  have hstill : ∀ {other : Caller}, other ∈ s.callers.erase c → other ∈ s.callers :=
    fun hother => List.mem_of_mem_erase hother
  exact ⟨⟨h.shape.keys, h.shape.cacheSize, h.shape.lookups, h.shape.pendingSize⟩, h.entries,
    h.floors, h.tasks, h.distinct, h.done, fun other hother => h.awaited other (hstill hother),
    fun other hother => h.held other (hstill hother),
    fun other hother => h.settled other (hstill hother), h.standing, h.answers⟩

/-- A caller wakes with what its lookup left. -/
theorem wake (h : Inv wire config s) {c : Caller} {s' : Resolver} (hc : c ∈ s.callers)
    (hs : s.wake c = some s') : Inv wire config s' := by
  unfold Resolver.wake at hs
  split at hs
  · rename_i task record hdone
    have htask : task = c.task := by simpa using List.find?_some hdone
    have hmem := List.mem_of_find?_eq_some hdone
    rw [htask] at hmem
    obtain ⟨habove, hproper, hblocked⟩ := h.settled c hc record hmem
    obtain rfl := Option.some.inj hs
    exact (h.leave c).give habove hproper hblocked
  · obtain rfl := Option.some.inj hs
    exact h.leave c
  · cases hs

/-- Asking the engine changes nothing else about a lookup. -/
theorem forall_acquire {P : Nat → Identity → Option Mutable → Prop}
    (h : ∀ l ∈ s.pending, P l.task l.identity l.floor) :
    ∀ l ∈ s.pending.map (·.acquire identity), P l.task l.identity l.floor := by
  intro l hl
  obtain ⟨l', hl', rfl⟩ := List.mem_map.mp hl
  have hP := h l' hl'
  unfold Lookup.acquire
  split <;> exact hP

/-- A free place for a lookup changes nothing that the invariant speaks of. -/
theorem acquired (h : Inv wire config s) (identity : Identity) :
    Inv wire config { s with pending := s.pending.map (·.acquire identity) } := by
  have hshape : Shape config { s with pending := s.pending.map (·.acquire identity) } :=
    h.shape.acquired identity
  refine ⟨hshape, h.entries, ?_, ?_, ?_, ?_, ?_, ?_, h.settled, h.standing, h.answers⟩
  · exact forall_acquire (P := fun _ id floor => ProperIfAny wire id floor) h.floors
  · exact forall_acquire (P := fun task _ _ => task < s.tasks) h.tasks
  · intro l hl l' hl' htask
    obtain ⟨m, hm, rfl⟩ := List.mem_map.mp hl
    obtain ⟨m', hm', rfl⟩ := List.mem_map.mp hl'
    have hsame : ∀ n : Lookup, (n.acquire identity).task = n.task := by
      intro n
      unfold Lookup.acquire
      split <;> rfl
    rw [hsame, hsame] at htask
    rw [h.distinct m hm m' hm' htask]
  · intro d hd
    exact ⟨(h.done d hd).1, forall_acquire (P := fun task _ _ => task ≠ d.1) (h.done d hd).2⟩
  · intro c hc
    exact ⟨(h.awaited c hc).1,
      forall_acquire (P := fun task id _ => task = c.task → id = c.identity) (h.awaited c hc).2⟩
  · intro c hc
    exact forall_acquire (P := fun task _ floor => task = c.task → Above floor c.known ∨
      ∃ entry, (c.identity, entry) ∈ s.cache ∧ Above entry.record c.known) (h.held c hc)

/-- **Every undisturbed step keeps the invariant.** -/
theorem step {s' : Resolver} {e : Event} (h : Inv wire config s)
    (hok : Undisturbed wire config s e) (hs : s.step wire config e = some s') :
    Inv wire config s' := by
  have hlookup : ∀ {identity : Identity} {l : Lookup}, s.lookup identity = some l →
      l ∈ s.pending ∧ l.identity = identity := by
    intro identity l hl
    exact ⟨List.mem_of_find?_eq_some hl, by simpa using List.find?_some hl⟩
  unfold Resolver.step at hs
  cases e with
  | resolve identity known refresh =>
    obtain rfl := Option.some.inj hs
    exact h.resolve hok
  | acquired identity =>
    dsimp only at hs
    split at hs
    · obtain rfl := Option.some.inj hs
      exact h.acquired identity
    · cases hs
  | answered identity answer =>
    dsimp only at hs
    split at hs
    · rename_i l hl
      obtain ⟨hmem, rfl⟩ := hlookup hl
      split at hs
      · obtain rfl := Option.some.inj hs
        apply h.settle hmem
        · intro hlands
          apply hok.floors l.identity
          show (if _ then some l.identity else none) = some l.identity
          rw [if_pos hlands]
        · intro hraises
          apply hok.conflicts l.identity
          show (match s.lookup l.identity with
            | some l' => if raisesConflict (s.outcome wire l' answer) then some l.identity else none
            | none => none) = some l.identity
          rw [hl]
          exact if_pos hraises
      · cases hs
    · cases hs
  | timedOut identity =>
    obtain ⟨l, hl, rfl⟩ := Option.map_eq_some_iff.mp hs
    apply h.settle (hlookup hl).1
    · intro hlands
      cases hlands
    · intro hraises
      cases hraises
  | resumed c =>
    dsimp only at hs
    split at hs
    · rename_i hc
      exact h.wake hc hs
    · cases hs
  | disconnected c =>
    dsimp only at hs
    split at hs
    · obtain rfl := Option.some.inj hs
      exact h.leave c
    · cases hs
  | elapsed ticks =>
    obtain rfl := Option.some.inj hs
    exact ⟨⟨h.shape.keys, h.shape.cacheSize, h.shape.lookups, h.shape.pendingSize⟩, h.entries,
      h.floors, h.tasks, h.distinct, h.done, h.awaited, h.held, h.settled, h.standing, h.answers⟩

end Inv

/-- What a call of `resolve` may return: a verified record of its identity, never below the
    record that the caller knows, and never while a conflict stands recorded. -/
structure Faithful (wire : Wire) (r : Returned) : Prop where
  known : ∀ k, r.known = some k → ∃ v, r.record = some v ∧ Covers v k
  proper : ∀ v, r.record = some v → Proper wire r.identity v
  unblocked : ∀ v, r.record = some v → r.blocked = false

/-- **Never below the floor, and never past a conflict**, in every undisturbed run. -/
theorem floor_of_undisturbed (wire : Wire) (config : Config) (events : List Event) (s : Resolver)
    (hok : Throughout (step wire config) (Undisturbed wire config) new events)
    (hrun : run (step wire config) new events = some s) :
    (∀ r ∈ s.returned, Faithful wire r) ∧ (s.pending.map (·.identity)).Nodup ∧
      s.cache.length ≤ config.capacity ∧ s.pending.length ≤ config.capacity := by
  have hinv : Inv wire config s := run_invariant (fun _ _ _ h hok hs => h.step hok hs) events new s
    (Inv.new wire config) hok hrun
  refine ⟨?_, hinv.shape.lookups, hinv.shape.cacheSize, hinv.shape.pendingSize⟩
  intro r hr
  obtain ⟨habove, hproper, hblocked⟩ := hinv.answers r hr
  refine ⟨?_, hproper, ?_⟩
  · intro k hk
    rw [hk] at habove
    cases hv : r.record with
    | none =>
      rw [hv] at habove
      exact absurd habove id
    | some v =>
      rw [hv] at habove
      exact ⟨v, rfl, habove⟩
  · intro v hv
    apply hblocked
    rw [hv]
    rfl

end Resolver

/-! ## §8. Runs. -/

/-- Every signature passes. -/
def demoWire : Wire := ⟨fun _ _ _ => true, .ok⟩

/-- `Resolver(engine)`. -/
def demoConfig : Config := ⟨128, 8, 30, 5⟩

def demoKey (n : Nat) : Bytes := UInt8.ofNat n :: List.replicate 31 0

def demoIdentity (n : Nat) : Identity := (demoKey n, publicationSalt)

/-- A publication of the identity, with an info hash of one repeated byte. -/
def demoRecord (n sequence : Nat) (hash : UInt8) : Mutable :=
  .publication ⟨demoKey n, sequence, List.replicate 20 hash, List.replicate 64 0⟩

/-- The state at the end of a run. -/
def demoEnd (events : List Event) : Resolver :=
  (run (Resolver.step demoWire demoConfig) Resolver.new events).getD Resolver.new

/-- A reader asks, a poll that knows sequence 5 joins, and the DHT still answers 3. -/
def demoJoined : List Event :=
  [.resolve (demoIdentity 0) none false, .acquired (demoIdentity 0),
   .resolve (demoIdentity 0) (some (demoRecord 0 5 1)) true,
   .answered (demoIdentity 0) (.ok (some (demoRecord 0 3 1))),
   .resumed ⟨demoIdentity 0, some (demoRecord 0 5 1), 0⟩]

/-- A call that joins a lookup with a lower floor gets the record that it knows. -/
theorem demoJoined_floor :
    ((demoEnd demoJoined).returned.map fun r => r.record.map (·.sequence)) = [some 5] ∧
      ∀ r ∈ (demoEnd demoJoined).returned, Resolver.Faithful demoWire r :=
  ⟨by decide +kernel,
    (Resolver.floor_of_undisturbed demoWire demoConfig demoJoined _ (by decide +kernel)
      (run_getD (by decide +kernel))).1⟩

/-- The same, and while the lookup is pending 128 names that do not exist are looked up. -/
def demoForgotten : List Event :=
  [.resolve (demoIdentity 0) none false, .acquired (demoIdentity 0),
   .resolve (demoIdentity 0) (some (demoRecord 0 5 1)) true] ++
  (List.range 128).flatMap (fun i =>
    [.resolve (demoIdentity (i + 1)) none false, .acquired (demoIdentity (i + 1)),
     .answered (demoIdentity (i + 1)) (.ok none)]) ++
  [.answered (demoIdentity 0) (.ok (some (demoRecord 0 3 1))),
   .resumed ⟨demoIdentity 0, some (demoRecord 0 5 1), 0⟩]

/-- The floor of the poll was only in the cache, and it is gone: the call that knows sequence 5
    returns sequence 3. -/
theorem forgotten_floor :
    ∃ s, run (Resolver.step demoWire demoConfig) Resolver.new demoForgotten = some s ∧
      s.returned = [⟨demoIdentity 0, some (demoRecord 0 5 1), some (demoRecord 0 3 1), false⟩] ∧
      ¬ ∀ r ∈ s.returned, Resolver.Faithful demoWire r := by
  have hrun : (run (Resolver.step demoWire demoConfig) Resolver.new demoForgotten).map (·.returned)
      = some [⟨demoIdentity 0, some (demoRecord 0 5 1), some (demoRecord 0 3 1), false⟩] := by
    decide +kernel
  obtain ⟨s, hs, hreturned⟩ := Option.map_eq_some_iff.mp hrun
  refine ⟨s, hs, hreturned, ?_⟩
  rw [hreturned]
  intro hall
  obtain ⟨v, hv, hcovers⟩ := (hall _ List.mem_cons_self).known _ rfl
  obtain rfl := Option.some.inj hv
  revert hcovers
  decide +kernel

/-- A reader's lookup returns sequence 3; before the reader resumes, a call that knows another
    value of sequence 3 finds the conflict. -/
def demoOvertaken : List Event :=
  [.resolve (demoIdentity 0) none false, .acquired (demoIdentity 0),
   .answered (demoIdentity 0) (.ok (some (demoRecord 0 3 1))),
   .resolve (demoIdentity 0) (some (demoRecord 0 3 2)) false,
   .resumed ⟨demoIdentity 0, none, 0⟩]

/-- The reader is given the record although a conflict stands recorded for it. -/
theorem overtaken_conflict :
    run (Resolver.step demoWire demoConfig) Resolver.new demoOvertaken
        = some (demoEnd demoOvertaken) ∧
      (demoEnd demoOvertaken).returned
        = [⟨demoIdentity 0, none, some (demoRecord 0 3 1), true⟩] :=
  ⟨run_getD (by decide +kernel), by decide +kernel⟩

end My98.Torrent.Names
