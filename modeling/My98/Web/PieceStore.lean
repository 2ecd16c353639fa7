/-
  My98.Web.PieceStore — the pieces of a torrent in RAM and in IndexedDB
  (`TorrentPieceStore` of `src/disk/web/torrent-store.js`).

  Every call goes in TURNS: its checks run in a microtask of their own (`starting`), it waits for the
  database (`waiting`), has a transaction (`txs`), and is called back some time later (`returning`).
  Microtasks run in the order in which they were queued, so the first three are queues.  A
  transaction runs when no earlier one overlaps with it, and their `complete` events come in the order
  of their creation.  What awaits a transaction goes on in the microtask checkpoint of that very
  event, before anything else; so `complete` is one step.

  The calls may come at any time, also from inside a callback.  Other tabs, `destroy` and
  `clearTorrentCache` are no events.

    • `step`     — the store, and what may happen to it;
    • `remember_spec` — what `remember` does to the pieces in RAM.
-/
import Mathlib
import My98.Lib.Machine
import My98.Web.LoadProfiles

namespace My98.Web.PieceStore

open My98.Lib My98.Web.LoadProfiles

/-! ## §1. The code. -/

def PIECE_LENGTH : Nat := 262144

/-- A number of the program; `none` is whatever is no finite number. -/
abbrev Num := Option ℚ

/-- What is rejected with, or thrown by the browser. -/
inductive Fault where
  /-- `QuotaExceededError`. -/
  | quota
  | coded (code : String)
  | other
  deriving DecidableEq

def storageError : Fault → String
  | .quota => "STORAGE_FULL"
  | .coded code => code
  | .other => "STORAGE_ERROR"

structure Config where
  length : Nat
  budget : Nat
  deriving DecidableEq

/-- The checks of the constructor. -/
def construct (hash : String) (chunkLength length : Num) (ramBytes : Option Num) :
    Except String Config :=
  if ¬(hash.length = 40 ∧ hash.toList.all (fun c => ('0' ≤ c ∧ c ≤ '9') ∨ ('a' ≤ c ∧ c ≤ 'f'))) ∨
      chunkLength ≠ some (PIECE_LENGTH : ℚ) then .error "INVALID_TORRENT"
  else
    match safeInteger? length, safeInteger? (ramBytes.getD (some (2 * 1024 * 1024))) with
    | some length, some budget =>
      if length < 1 ∨ budget < 0 ∨ 8 * 1024 * 1024 < budget then .error "INVALID_TORRENT"
      else .ok { length := length.toNat, budget := budget.toNat }
    | _, _ => .error "INVALID_TORRENT"

namespace Config

def count (c : Config) : Nat := (c.length + (PIECE_LENGTH - 1)) / PIECE_LENGTH

def pieceSize (c : Config) (index : Nat) : Nat := min PIECE_LENGTH (c.length - index * PIECE_LENGTH)

/-- `size(index)`, with the index that it accepts. -/
def size (c : Config) (index : Num) : Except String (Nat × Nat) :=
  match safeInteger? index with
  | none => .error "INVALID_RANGE"
  | some i =>
    if i < 0 ∨ (c.count : ℤ) ≤ i then .error "INVALID_RANGE" else .ok (i.toNat, c.pieceSize i.toNat)

end Config

/-- `input` is `none` when it is no `Uint8Array`; an option that is not given is `none`. -/
inductive Call where
  | put (index : Num) (input : Option Bytes)
  | get (index : Num) (offset length : Option Num)
  deriving DecidableEq

/-- A call that has passed its checks. -/
inductive Job where
  | put (index : Nat) (data : Bytes)
  | get (index size offset length : Nat)
  deriving DecidableEq

/-- The checks of `put` and `get`. -/
def Config.accept (c : Config) : Call → Except String Job
  | .put index input =>
    match c.size index with
    | .error code => .error code
    | .ok (i, size) =>
      match input with
      | none => .error "INVALID_RANGE"
      | some data => if data.length ≠ size then .error "INVALID_RANGE" else .ok (.put i data)
  | .get index offset length =>
    match c.size index with
    | .error code => .error code
    | .ok (i, size) =>
      match safeInteger? (offset.getD (some 0)) with
      | none => .error "INVALID_RANGE"
      | some o =>
        match (match length with | none => some ((size : ℤ) - o) | some l => safeInteger? l) with
        | none => .error "INVALID_RANGE"
        | some l =>
          if o < 0 ∨ l < 0 ∨ (size : ℤ) < o + l then .error "INVALID_RANGE"
          else .ok (.get i size o.toNat l.toNat)

/-- A row of `pieces`, for the hash of the store; its `data` is `none` when that is no `Uint8Array`. -/
structure Row where
  length : Nat
  chunkLength : Nat
  data : Option Bytes
  deriving DecidableEq

def Config.row (c : Config) (data : Bytes) : Row :=
  { length := c.length, chunkLength := PIECE_LENGTH, data := some data }

/-- The data of a row that `get` accepts. -/
def Config.read (c : Config) (size : Nat) : Option Row → Option Bytes
  | none => none
  | some row =>
    if row.length ≠ c.length ∨ row.chunkLength ≠ PIECE_LENGTH then none
    else row.data.filter fun data => data.length = size

/-- `Map`, in the order of insertion. -/
abbrev Pieces := List (Nat × Bytes)

def total (cache : Pieces) : ℤ := (cache.map fun p => (p.2.length : ℤ)).sum

/-- The loop of `remember`; `false` when it throws, as there is no first entry. -/
def makeRoom (budget : Nat) : Pieces → ℤ → Bool × Pieces × ℤ
  | [], memoryBytes => (decide (memoryBytes ≤ budget), [], memoryBytes)
  | p :: rest, memoryBytes =>
    if (budget : ℤ) < memoryBytes then makeRoom budget rest (memoryBytes - p.2.length)
    else (true, p :: rest, memoryBytes)

def without (cache : Pieces) (index : Nat) : Pieces := cache.filter fun p => p.1 ≠ index

/-- `remember(index,data)`. -/
def remember (budget : Nat) (cache : Pieces) (memoryBytes : ℤ) (index : Nat) (data : Bytes) :
    Bool × Pieces × ℤ :=
  let memoryBytes :=
    match cache.find? (fun p => p.1 = index) with
    | some previous => memoryBytes - previous.2.length
    | none => memoryBytes
  let cache := without cache index
  if budget < data.length then (true, cache, memoryBytes)
  else makeRoom budget (cache ++ [(index, data)]) (memoryBytes + data.length)

/-- What a callback is given. -/
abbrev Result := Except String (Option Bytes)

/-- A transaction of `pieces`. -/
structure Tx where
  id : Nat
  job : Job
  /-- Its request has succeeded; with the row, when it reads one. -/
  ran : Option (Option Row)

/-- `close`: what was pending when it was called. -/
structure Closing where
  pending : List Nat
  cleared : Bool

/-- What callers and the database see. -/
inductive Entry where
  | call (id : Nat) (call : Call)
  | close
  | committed (id index : Nat) (data : Bytes)
  /-- The database has failed, for this call. -/
  | fault (id : Nat)
  | done (id : Nat) (result : Result)
  /-- The callback of `close`. -/
  | closed
  deriving DecidableEq

structure State where
  cache : Pieces
  memoryBytes : ℤ
  pending : List Nat
  closed : Bool
  /-- What `this.ready` is settled with. -/
  ready : Option (Except Fault Unit)
  rows : Nat → Option Row
  starting : List (Nat × Call)
  waiting : List (Nat × Job)
  txs : List Tx
  returning : List (Nat × Result)
  closings : List Closing
  next : Nat
  /-- The latest first. -/
  log : List Entry

def State.start (rows : Nat → Option Row) : State :=
  { cache := [], memoryBytes := 0, pending := [], closed := false, ready := none, rows, starting := [],
    waiting := [], txs := [], returning := [], closings := [], next := 0, log := [] }

inductive Event where
  | call (call : Call)
  | close
  | ready (result : Except Fault Unit)
  /-- The first turn of the next call. -/
  | start
  /-- The next call goes on after `await this.ready`; the browser may throw. -/
  | resume (throws : Option Fault)
  /-- The request of a transaction succeeds. -/
  | run (k : Nat)
  /-- The `complete` event of the first transaction. -/
  | complete
  /-- The `abort` event of a transaction. -/
  | abort (k : Nat) (fault : Fault)
  | callback (k : Nat)
  /-- `close` goes on: all that was pending has settled. -/
  | clear (k : Nat)
  /-- `close` has closed the database, or seen that there is none. -/
  | closed (k : Nat)

/-- The promise of `perform` is settled. -/
def State.settle (s : State) (id : Nat) (result : Result) : State :=
  { s with returning := s.returning ++ [(id, result)] }

/-- It is rejected by the database. -/
def State.fail (s : State) (id : Nat) (fault : Fault) : State :=
  { s with returning := s.returning ++ [(id, .error (storageError fault))], log := .fault id :: s.log }

/-- `get`, up to its first `await`: `some` if the piece is in RAM. -/
def State.lookup (s : State) (id index offset length : Nat) : Option State :=
  (s.cache.find? fun p => p.1 = index).map fun p =>
    { s with
      cache := without s.cache index ++ [(index, p.2)]
      returning := s.returning ++ [(id, .ok (some (slice p.2 offset length)))] }

/-- The first turn of a call. -/
def State.begin (c : Config) (s : State) (id : Nat) (call : Call) : State :=
  match c.accept call with
  | .error code => s.settle id (.error code)
  | .ok (.put index data) => { s with waiting := s.waiting ++ [(id, .put index data)] }
  | .ok (.get index size offset length) =>
    (s.lookup id index offset length).getD
      { s with waiting := s.waiting ++ [(id, .get index size offset length)] }

/-- After `await this.ready`. -/
def State.open (s : State) (id : Nat) (job : Job) (ready : Except Fault Unit) (throws : Option Fault) :
    State :=
  match ready, throws with
  | .error fault, _ => s.fail id fault
  | .ok _, some fault => s.fail id fault
  | .ok _, none => { s with txs := s.txs ++ [{ id, job, ran := none }] }

def Job.writes : Job → Bool
  | .put _ _ => true
  | .get _ _ _ _ => false

def Job.index : Job → Nat
  | .put index _ => index
  | .get index _ _ _ => index

/-- No earlier transaction overlaps with this one. -/
def State.mayRun (s : State) (k : Nat) (tx : Tx) : Bool :=
  (s.txs.take k).all fun earlier => !earlier.job.writes && !tx.job.writes

/-- The pieces in RAM are what `remember` leaves, and the promise is settled unless it throws. -/
def State.remembered (s : State) (id : Nat) (x : Bool × Pieces × ℤ) (result : Option Bytes) : State :=
  { s with
    cache := x.2.1
    memoryBytes := x.2.2
    returning := s.returning ++ [(id, if x.1 then .ok result else .error "STORAGE_ERROR")] }

/-- A transaction is complete. -/
def State.complete (c : Config) (s : State) (tx : Tx) (row : Option Row) : State :=
  match tx.job with
  | .put index data =>
    State.remembered
      { s with
        rows := Function.update s.rows index (some (c.row data))
        log := .committed tx.id index data :: s.log }
      tx.id (remember c.budget s.cache s.memoryBytes index data) none
  | .get index size offset length =>
    match c.read size row with
    | none => s.settle tx.id (.error "ENOENT")
    | some data =>
      s.remembered tx.id (remember c.budget s.cache s.memoryBytes index data)
        (some (slice data offset length))

/-- The calls that have not settled. -/
def State.queue (s : State) : List Nat :=
  s.txs.map Tx.id ++ s.waiting.map Prod.fst ++ s.starting.map Prod.fst

def step (c : Config) (s : State) : Event → Option State
  | .call call =>
    let id := s.next
    let s := { s with next := id + 1, log := .call id call :: s.log }
    if s.closed then some (s.settle id (.error "STORAGE_CLOSED"))
    else some { s with pending := s.pending ++ [id], starting := s.starting ++ [(id, call)] }
  | .close =>
    some { s with
      closed := true, closings := s.closings ++ [{ pending := s.pending, cleared := false }],
      log := .close :: s.log }
  | .ready result => if s.ready.isSome then none else some { s with ready := some result }
  | .start =>
    match s.starting with
    | [] => none
    | (id, call) :: rest => some (State.begin c { s with starting := rest } id call)
  | .resume throws =>
    match s.ready, s.waiting with
    | some ready, (id, job) :: rest => some (State.open { s with waiting := rest } id job ready throws)
    | _, _ => none
  | .run k =>
    (s.txs[k]?).bind fun tx =>
      if tx.ran.isNone = true ∧ s.mayRun k tx = true then
        some { s with txs := s.txs.set k { tx with ran := some (s.rows tx.job.index) } }
      else none
  | .complete =>
    match s.txs with
    | [] => none
    | tx :: rest => tx.ran.map fun row => State.complete c { s with txs := rest } tx row
  | .abort k fault =>
    (s.txs[k]?).map fun tx => State.fail { s with txs := s.txs.eraseIdx k } tx.id fault
  | .callback k =>
    (s.returning[k]?).map fun x =>
      { s with
        returning := s.returning.eraseIdx k, pending := s.pending.erase x.1,
        log := .done x.1 x.2 :: s.log }
  | .clear k =>
    (s.closings[k]?).bind fun closing =>
      if closing.cleared = false ∧ ∀ id ∈ closing.pending, id ∉ s.queue then
        some { s with
          cache := [], memoryBytes := 0, closings := s.closings.set k { closing with cleared := true } }
      else none
  | .closed k =>
    (s.closings[k]?).bind fun closing =>
      if closing.cleared = true ∧ s.ready.isSome = true then
        some { s with closings := s.closings.eraseIdx k, log := .closed :: s.log }
      else none

/-- The call that a step is a part of. -/
def State.actor (s : State) : Event → Option Nat
  | .call _ => some s.next
  | .start => s.starting.head?.map Prod.fst
  | .resume _ => s.waiting.head?.map Prod.fst
  | .run k => (s.txs[k]?).map Tx.id
  | .complete => s.txs.head?.map Tx.id
  | .abort k _ => (s.txs[k]?).map Tx.id
  | .callback k => (s.returning[k]?).map Prod.fst
  | _ => none

/-! ## §2. The pieces in RAM. -/

/-- What the constructor accepts has a piece, and at most 8 MiB of RAM. -/
theorem construct_ok {hash : String} {chunkLength length : Num} {ramBytes : Option Num} {c : Config}
    (h : construct hash chunkLength length ramBytes = .ok c) :
    1 ≤ c.length ∧ c.budget ≤ 8 * 1024 * 1024 := by
  unfold construct at h
  split at h
  · cases h
  · split at h
    next length budget hlength hbudget =>
      split at h
      · cases h
      next hbounds =>
        injection h with h
        subst h
        dsimp only
        omega
    · cases h

section Ram

variable {budget : Nat} {cache : Pieces} {index : Nat}

theorem total_append (cache cache' : Pieces) : total (cache ++ cache') = total cache + total cache' := by
  unfold total
  rw [List.map_append, List.sum_append]

theorem mem_without {p : Nat × Bytes} : p ∈ without cache index ↔ p ∈ cache ∧ p.1 ≠ index := by
  unfold without
  rw [List.mem_filter, decide_eq_true_eq]

theorem without_of_notMem (h : ∀ p ∈ cache, p.1 ≠ index) : without cache index = cache := by
  unfold without
  rw [List.filter_eq_self]
  exact fun p hp => decide_eq_true (h p hp)

theorem nodup_without (h : (cache.map Prod.fst).Nodup) : ((without cache index).map Prod.fst).Nodup :=
  h.sublist (List.filter_sublist.map Prod.fst)

/-- A piece is in the map once. -/
theorem total_find (h : (cache.map Prod.fst).Nodup) {p : Nat × Bytes}
    (hp : (cache.find? fun p => p.1 = index) = some p) :
    p.1 = index ∧ p ∈ cache ∧ total cache = total (without cache index) + p.2.length := by
  have hyes := List.find?_some hp
  have hkey : p.1 = index := of_decide_eq_true hyes
  refine ⟨hkey, List.mem_of_find?_eq_some hp, ?_⟩
  obtain ⟨-, before, after, rfl, -⟩ := List.find?_eq_some_iff_append.mp hp
  rw [List.map_append, List.map_cons, List.nodup_append, List.nodup_cons] at h
  obtain ⟨-, ⟨hafter, -⟩, hbefore⟩ := h
  have hleft : without before index = before := without_of_notMem fun q hq heq =>
    hbefore q.1 (List.mem_map_of_mem hq) p.1 List.mem_cons_self (heq.trans hkey.symm)
  have hright : without after index = after := without_of_notMem fun q hq heq =>
    hafter (hkey.trans heq.symm ▸ List.mem_map_of_mem hq)
  have hsplit : without (before ++ p :: after) index = before ++ after := by
    have hcons : without (p :: after) index = without after index := by
      unfold without
      rw [List.filter_cons_of_neg]
      exact fun hne => of_decide_eq_true hne hkey
    have happend : without (before ++ p :: after) index =
        without before index ++ without (p :: after) index := List.filter_append _ _
    rw [happend, hcons, hleft, hright]
  rw [hsplit, total_append, total_append]
  unfold total
  rw [List.map_cons, List.sum_cons]
  ring

/-- **The loop of `remember`** ends within the budget, with the later pieces. -/
theorem makeRoom_spec (budget : Nat) : ∀ (cache : Pieces), ∃ rest : Pieces, rest <:+ cache ∧
    makeRoom budget cache (total cache) = (true, rest, total rest) ∧ total rest ≤ budget := by
  intro cache
  induction cache with
  | nil =>
    have hempty : total [] ≤ budget := Int.natCast_nonneg budget
    refine ⟨[], List.suffix_refl _, ?_, hempty⟩
    unfold makeRoom
    rw [decide_eq_true hempty]
  | cons p cache ih =>
    unfold makeRoom
    split
    next hover =>
      obtain ⟨rest, hsuffix, hloop, hroom⟩ := ih
      refine ⟨rest, hsuffix.trans (List.suffix_cons p cache), ?_, hroom⟩
      have htotal : total (p :: cache) - p.2.length = total cache := by
        unfold total
        rw [List.map_cons, List.sum_cons]
        ring
      rw [htotal]
      exact hloop
    next hroom => exact ⟨p :: cache, List.suffix_refl _, rfl, not_lt.mp hroom⟩

/-- **`remember`** never throws.  Its counter is the total again, and within the budget; and there is
    nothing in RAM but the piece and what was there of the others. -/
theorem remember_spec (h : (cache.map Prod.fst).Nodup) (hbudget : total cache ≤ budget) (data : Bytes) :
    ∃ rest : Pieces, remember budget cache (total cache) index data = (true, rest, total rest) ∧
      total rest ≤ budget ∧ (rest.map Prod.fst).Nodup ∧
      ∀ p ∈ rest, p = (index, data) ∨ p ∈ cache ∧ p.1 ≠ index := by
  have hmemory : (match cache.find? (fun p => p.1 = index) with
      | some previous => total cache - previous.2.length
      | none => total cache) = total (without cache index) := by
    split
    next previous hfind =>
      rw [(total_find h hfind).2.2]
      ring
    next hfind =>
      rw [without_of_notMem]
      intro p hp heq
      exact List.find?_eq_none.mp hfind p hp (decide_eq_true heq)
  have hless : total (without cache index) ≤ total cache := by
    cases hfind : cache.find? fun p => p.1 = index with
    | none =>
      rw [hfind] at hmemory
      exact hmemory.ge
    | some p =>
      rw [(total_find h hfind).2.2]
      exact le_add_of_nonneg_right (Int.natCast_nonneg _)
  unfold remember
  dsimp only
  rw [hmemory]
  split
  · exact ⟨_, rfl, hless.trans hbudget, nodup_without h, fun p hp => Or.inr (mem_without.mp hp)⟩
  · have htotal : total (without cache index) + data.length =
        total (without cache index ++ [(index, data)]) := by
      rw [total_append]
      unfold total
      rw [List.map_singleton, List.sum_singleton]
    rw [htotal]
    obtain ⟨rest, hsuffix, hloop, hroom⟩ := makeRoom_spec budget (without cache index ++ [(index, data)])
    refine ⟨rest, hloop, hroom, ?_, fun p hp => ?_⟩
    · refine List.Nodup.sublist (hsuffix.sublist.map Prod.fst) ?_
      rw [List.map_append, List.nodup_append]
      refine ⟨nodup_without h, List.nodup_singleton _, ?_⟩
      rintro i hi j hj rfl
      obtain ⟨p, hp, rfl⟩ := List.mem_map.mp hi
      exact (mem_without.mp hp).2 (List.mem_singleton.mp hj)
    · rcases List.mem_append.mp (hsuffix.subset hp) with hp | hp
      · exact Or.inr (mem_without.mp hp)
      · exact Or.inl (List.mem_singleton.mp hp)

/-- A piece that is looked up moves to the end. -/
theorem touch_spec (h : (cache.map Prod.fst).Nodup) {p : Nat × Bytes}
    (hp : (cache.find? fun p => p.1 = index) = some p) :
    total (without cache index ++ [(index, p.2)]) = total cache ∧
      ((without cache index ++ [(index, p.2)]).map Prod.fst).Nodup ∧
      ∀ q ∈ without cache index ++ [(index, p.2)], q ∈ cache := by
  obtain ⟨hkey, hmem, htotal⟩ := total_find h hp
  refine ⟨?_, ?_, fun q hq => ?_⟩
  · rw [htotal, total_append]
    unfold total
    rw [List.map_singleton, List.sum_singleton]
  · rw [List.map_append, List.nodup_append]
    refine ⟨nodup_without h, List.nodup_singleton _, ?_⟩
    rintro i hi j hj rfl
    obtain ⟨q, hq, rfl⟩ := List.mem_map.mp hi
    exact (mem_without.mp hq).2 (List.mem_singleton.mp hj)
  · rcases List.mem_append.mp hq with hq | hq
    · exact (mem_without.mp hq).1
    · rw [List.mem_singleton.mp hq, ← hkey]
      exact hmem

end Ram

/-! ## §3. Accepted calls. -/

section Accepted

variable {c : Config} {call : Call} {i size offset length : Nat} {data : Bytes}

theorem size_ok {index : Num} {n : Nat} (h : c.size index = .ok (i, n)) : n = c.pieceSize i := by
  unfold Config.size at h
  split at h
  · cases h
  · split at h
    · cases h
    · obtain ⟨rfl, rfl⟩ := Prod.mk.inj (Except.ok.inj h)
      rfl

/-- A piece that is put has its length. -/
theorem accept_put (h : c.accept call = .ok (.put i data)) : data.length = c.pieceSize i := by
  unfold Config.accept at h
  split at h
  next index input =>
    split at h
    · cases h
    next n hsize =>
      split at h
      · cases h
      · split at h
        · cases h
        next hlength =>
          obtain ⟨rfl, rfl⟩ := Job.put.inj (Except.ok.inj h)
          rw [← size_ok hsize]
          exact not_not.mp hlength
  next index offset length =>
    split at h
    · cases h
    · split at h
      · cases h
      · split at h
        · cases h
        · split at h
          · cases h
          · cases h

/-- A range that is asked for lies in its piece. -/
theorem accept_get (h : c.accept call = .ok (.get i size offset length)) :
    size = c.pieceSize i ∧ offset + length ≤ size := by
  unfold Config.accept at h
  split at h
  next index input =>
    split at h
    · cases h
    · split at h
      · cases h
      · split at h
        · cases h
        · cases h
  next index o l =>
    split at h
    · cases h
    next n hsize =>
      split at h
      · cases h
      · split at h
        · cases h
        · split at h
          · cases h
          next hrange =>
            obtain ⟨rfl, rfl, rfl, rfl⟩ := Job.get.inj (Except.ok.inj h)
            exact ⟨size_ok hsize, by omega⟩

/-- What a `put` has stored is read back. -/
theorem read_row (h : data.length = c.pieceSize i) : c.read (c.pieceSize i) (some (c.row data)) = some data := by
  unfold Config.read Config.row
  dsimp only
  rw [if_neg (by simp)]
  exact (Option.filter_eq_some_iff).mpr ⟨rfl, decide_eq_true h⟩

end Accepted

end My98.Web.PieceStore
