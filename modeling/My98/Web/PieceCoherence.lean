/-
  My98.Web.PieceCoherence — the pieces in RAM are those that were stored last
  (`TorrentPieceStore` of `src/disk/web/torrent-store.js`).

  A row is read when no earlier write is left, and what reads it goes on before a later write is
  complete.  So the row that goes into RAM is still the one in the database, and the pieces in RAM are
  those of the rows.  Calls get their transactions in the order in which they were made: when a `get`
  goes on, nothing that was called after it is committed, and of all that was called before it the last
  `put` is committed last.

    • `Inv`, `inv_step`      — what holds between any two steps;
    • `Expected`, `Answered` — what a `get` has to return;
    • `step_frame`           — what a step does to the log, the pieces and the rows;
    • `put_step`             — a step of a `put`;
    • `store_coherent`       — every run.
-/
import My98.Web.PieceStore

namespace My98.Web.PieceStore

open My98.Lib My98.Web.LoadProfiles

/-! ## §1. What the log says. -/

/-- The data of the last `put` on a piece whose transaction was committed. -/
def lastCommitted : List Entry → Nat → Option Bytes
  | [], _ => none
  | .committed _ i data :: earlier, index =>
    if i = index then some data else lastCommitted earlier index
  | _ :: earlier, index => lastCommitted earlier index

def callIds (log : List Entry) : List Nat :=
  log.filterMap fun e =>
    match e with
    | .call id _ => some id
    | _ => none

def commitIds (log : List Entry) : List Nat :=
  log.filterMap fun e =>
    match e with
    | .committed id _ _ => some id
    | _ => none

/-- A call was made, and its checks let it pass as this job. -/
def Accepted (c : Config) (log : List Entry) (id : Nat) (job : Job) : Prop :=
  ∃ call, .call id call ∈ log ∧ c.accept call = .ok job

/-- No `put` on the piece was called, but for those that are refused for their range or size. -/
def NoPut (c : Config) (i : Nat) (log : List Entry) : Prop :=
  ∀ id call data, .call id call ∈ log → c.accept call ≠ .ok (.put i data)

/-- The last `put` on the piece was one of `data`, and it has called back without an error. -/
def Settled (c : Config) (log : List Entry) (i : Nat) (data : Bytes) : Prop :=
  ∃ later id call earlier, log = later ++ .call id call :: earlier ∧
    c.accept call = .ok (.put i data) ∧ NoPut c i later ∧ .done id (.ok none) ∈ later

/-- A `get` that was called when the last `put` on its piece, of `data`, had called back. -/
def Expected (c : Config) (log : List Entry) (id i size offset length : Nat) (data : Bytes) : Prop :=
  ∃ later call earlier, log = later ++ .call id call :: earlier ∧
    c.accept call = .ok (.get i size offset length) ∧ Settled c earlier i data

/-- **What a `get` returns**: the bytes of that `put`, unless the store was closed before the call or
    the database has failed. -/
def Answered (c : Config) (log : List Entry) (id : Nat) (result : Result) : Prop :=
  ∀ i size offset length data, Expected c log id i size offset length data →
    result = .ok (some (slice data offset length)) ∨
      (result = .error "STORAGE_CLOSED" ∧ .close ∈ log) ∨
      ((∃ fault, result = .error (storageError fault)) ∧ .fault id ∈ log)

/-- A `put` calls back without an error just when its transaction was committed. -/
def Outcome (c : Config) (log : List Entry) (id : Nat) (result : Result) : Prop :=
  ∀ i data, Accepted c log id (.put i data) → (result = .ok none ↔ .committed id i data ∈ log)

section Log

variable {c : Config} {log : List Entry} {e : Entry} {id i size offset length : Nat} {data : Bytes}
  {job : Job} {result : Result}

theorem mem_callIds : id ∈ callIds log ↔ ∃ call, .call id call ∈ log := by
  unfold callIds
  rw [List.mem_filterMap]
  constructor
  · rintro ⟨e, he, hid⟩
    split at hid
    next id' call =>
      obtain rfl := Option.some.inj hid
      exact ⟨call, he⟩
    · cases hid
  · rintro ⟨call, hcall⟩
    exact ⟨_, hcall, rfl⟩

theorem Accepted.cons (h : Accepted c log id job) (e : Entry) : Accepted c (e :: log) id job := by
  obtain ⟨call, hcall, hjob⟩ := h
  exact ⟨call, List.mem_cons_of_mem e hcall, hjob⟩

theorem Accepted.mem_callIds (h : Accepted c log id job) : id ∈ callIds log := by
  obtain ⟨call, hcall, -⟩ := h
  exact PieceStore.mem_callIds.mpr ⟨call, hcall⟩

/-- Any other entry says nothing of the call. -/
theorem Accepted.of_cons (h : Accepted c (e :: log) id job) (hne : ∀ call, e ≠ .call id call) :
    Accepted c log id job := by
  obtain ⟨call, hcall, hjob⟩ := h
  rcases List.mem_cons.mp hcall with heq | hcall
  · exact absurd heq.symm (hne call)
  · exact ⟨call, hcall, hjob⟩

/-- A call is made once. -/
theorem call_unique (h : (callIds log).Nodup) {call call' : Call} (hcall : .call id call ∈ log)
    (hcall' : .call id call' ∈ log) : call = call' := by
  induction log with
  | nil => cases hcall
  | cons e log ih =>
    by_cases he : ∃ call, e = .call id call
    · obtain ⟨first, rfl⟩ := he
      have hnot : id ∉ callIds log := (List.nodup_cons.mp h).1
      have hhead : ∀ other, .call id other ∈ Entry.call id first :: log → other = first := by
        intro other hother
        rcases List.mem_cons.mp hother with heq | hother
        · exact (Entry.call.inj heq).2
        · exact absurd (PieceStore.mem_callIds.mpr ⟨other, hother⟩) hnot
      rw [hhead call hcall, hhead call' hcall']
    · have hrest : (callIds log).Nodup := by
        cases e with
        | call id' call => exact (List.nodup_cons.mp h).2
        | close => exact h
        | committed id' i data => exact h
        | fault id' => exact h
        | done id' result => exact h
        | closed => exact h
      have htail : ∀ other, .call id other ∈ e :: log → .call id other ∈ log := by
        intro other hother
        rcases List.mem_cons.mp hother with heq | hother
        · exact absurd ⟨other, heq.symm⟩ he
        · exact hother
      exact ih hrest (htail call hcall) (htail call' hcall')

theorem Accepted.unique (h : (callIds log).Nodup) {job' : Job} (ha : Accepted c log id job)
    (ha' : Accepted c log id job') : job = job' := by
  obtain ⟨call, hcall, hjob⟩ := ha
  obtain ⟨call', hcall', hjob'⟩ := ha'
  rw [call_unique h hcall hcall'] at hjob
  exact Except.ok.inj (hjob.symm.trans hjob')

theorem Expected.accepted (h : Expected c log id i size offset length data) :
    Accepted c log id (.get i size offset length) := by
  obtain ⟨later, call, earlier, rfl, hget, -⟩ := h
  exact ⟨call, List.mem_append_right later List.mem_cons_self, hget⟩

/-- What is expected now was expected before. -/
theorem Expected.of_cons (h : Expected c (e :: log) id i size offset length data)
    (hne : ∀ call, e ≠ .call id call) : Expected c log id i size offset length data := by
  obtain ⟨later, call, earlier, heq, hget, hsettled⟩ := h
  cases later with
  | nil => exact absurd (List.cons.inj heq).1 (hne call)
  | cons first later =>
    obtain ⟨rfl, rfl⟩ := List.cons.inj heq
    exact ⟨later, call, earlier, rfl, hget, hsettled⟩

theorem Answered.cons (h : Answered c log id result) (hne : ∀ call, e ≠ .call id call) :
    Answered c (e :: log) id result := by
  intro i size offset length data hexpected
  rcases h i size offset length data (hexpected.of_cons hne) with hok | ⟨hclosed, hclose⟩ | ⟨hfault, hmem⟩
  · exact Or.inl hok
  · exact Or.inr (Or.inl ⟨hclosed, List.mem_cons_of_mem e hclose⟩)
  · exact Or.inr (Or.inr ⟨hfault, List.mem_cons_of_mem e hmem⟩)

theorem Outcome.cons (h : Outcome c log id result) (hne : ∀ call, e ≠ .call id call)
    (hcommit : ∀ i data, e ≠ .committed id i data) : Outcome c (e :: log) id result := by
  intro i data hacc
  rw [h i data (hacc.of_cons hne), List.mem_cons]
  exact (or_iff_right fun heq => hcommit i data heq.symm).symm

/-- What was committed on a piece, was committed last or is older. -/
theorem lastCommitted_of_mem (h : (commitIds log).Pairwise (· > ·)) (hmem : .committed id i data ∈ log) :
    ∃ id' data', lastCommitted log i = some data' ∧ .committed id' i data' ∈ log ∧ id ≤ id' := by
  induction log with
  | nil => cases hmem
  | cons e log ih =>
    have hother : (commitIds log).Pairwise (· > ·) → (.committed id i data ∈ log) →
        lastCommitted (e :: log) i = lastCommitted log i →
        ∃ id' data', lastCommitted (e :: log) i = some data' ∧ .committed id' i data' ∈ e :: log ∧
          id ≤ id' := by
      intro hrest htail heq
      obtain ⟨id', data', hlast, hmem', hle⟩ := ih hrest htail
      exact ⟨id', data', heq.trans hlast, List.mem_cons_of_mem e hmem', hle⟩
    cases e with
    | committed id' i' data' =>
      obtain ⟨hlater, hrest⟩ := List.pairwise_cons.mp h
      by_cases hi : i' = i
      · subst hi
        refine ⟨id', data', if_pos rfl, List.mem_cons_self, ?_⟩
        rcases List.mem_cons.mp hmem with heq | htail
        · exact (Entry.committed.inj heq).1.le
        · exact (hlater id (List.mem_filterMap.mpr ⟨_, htail, rfl⟩)).le
      · rcases List.mem_cons.mp hmem with heq | htail
        · exact absurd (Entry.committed.inj heq).2.1.symm hi
        · exact hother hrest htail (if_neg hi)
    | call id' call => exact hother h ((List.mem_cons.mp hmem).resolve_left (by simp)) rfl
    | close => exact hother h ((List.mem_cons.mp hmem).resolve_left (by simp)) rfl
    | fault id' => exact hother h ((List.mem_cons.mp hmem).resolve_left (by simp)) rfl
    | done id' result => exact hother h ((List.mem_cons.mp hmem).resolve_left (by simp)) rfl
    | closed => exact hother h ((List.mem_cons.mp hmem).resolve_left (by simp)) rfl

end Log

/-! ## §2. The invariant. -/

/-- A transaction that has run has no write before it. -/
def Clear (earlier later : Tx) : Prop := later.ran.isSome = true → earlier.job.writes = false

/-- **What holds between any two steps.** -/
structure Inv (c : Config) (rows : Nat → Option Row) (s : State) : Prop where
  memory : s.memoryBytes = total s.cache
  bounded : s.memoryBytes ≤ c.budget
  keys : (s.cache.map Prod.fst).Nodup
  cached : ∀ p ∈ s.cache, ∃ row, s.rows p.1 = some row ∧ row.data = some p.2
  stored : ∀ i, s.rows i =
    match lastCommitted s.log i with
    | some data => some (c.row data)
    | none => rows i
  clear : s.txs.Pairwise Clear
  captured : ∀ tx ∈ s.txs, ∀ row, tx.ran = some row → row = s.rows tx.job.index
  closed : s.closed = true → .close ∈ s.log
  queue : s.queue.Pairwise (· < ·)
  fresh : ∀ id ∈ s.queue, id < s.next
  calls : (callIds s.log).Pairwise (· > ·)
  called : ∀ id ∈ callIds s.log, id < s.next
  starting : ∀ x ∈ s.starting, .call x.1 x.2 ∈ s.log
  waiting : ∀ x ∈ s.waiting, Accepted c s.log x.1 x.2
  txs : ∀ tx ∈ s.txs, Accepted c s.log tx.id tx.job
  commits : (commitIds s.log).Pairwise (· > ·)
  committed : ∀ id i data, .committed id i data ∈ s.log →
    Accepted c s.log id (.put i data) ∧ ∀ id' ∈ s.queue, id < id'
  returned : ∀ x ∈ s.returning, x.1 < s.next ∧ x.1 ∉ s.queue ∧ Outcome c s.log x.1 x.2 ∧
    Answered c s.log x.1 x.2
  done : ∀ id result, .done id result ∈ s.log → id < s.next ∧ id ∉ s.queue ∧ Outcome c s.log id result
  answered : ∀ later earlier id result, s.log = later ++ .done id result :: earlier →
    Answered c earlier id result

theorem inv_start (c : Config) (rows : Nat → Option Row) : Inv c rows (State.start rows) := by
  refine ⟨rfl, Int.natCast_nonneg _, List.nodup_nil, fun p hp => ?_, fun i => rfl, List.Pairwise.nil,
    fun tx htx => ?_, fun h => ?_, List.Pairwise.nil, fun id h => ?_, List.Pairwise.nil, fun id h => ?_,
    fun x h => ?_, fun x h => ?_, fun tx h => ?_, List.Pairwise.nil, fun id i data h => ?_, fun x h => ?_,
    fun id result h => ?_, fun later earlier id result h => ?_⟩
  · cases hp
  · cases htx
  · cases h
  · cases h
  · cases h
  · cases h
  · cases h
  · cases h
  · cases h
  · cases h
  · cases h
  · exact absurd h (by simp [State.start])

section Steps

variable {c : Config} {rows : Nat → Option Row} {s : State}

theorem Inv.nodup (h : Inv c rows s) : (callIds s.log).Nodup := h.calls.imp fun hab => (ne_of_lt hab).symm

/-- Calls are logged in the order of their numbers. -/
theorem call_lt {log later earlier : List Entry} {id id' : Nat} {call call' : Call}
    (h : (callIds log).Pairwise (· > ·)) (heq : log = later ++ .call id call :: earlier)
    (hmem : .call id' call' ∈ log) :
    (.call id' call' ∈ later ∧ id < id') ∨ (id' = id ∧ call' = call) ∨
      (.call id' call' ∈ earlier ∧ id' < id) := by
  subst heq
  unfold callIds at h
  rw [List.filterMap_append, List.pairwise_append] at h
  obtain ⟨-, hright, hcross⟩ := h
  have hin : ∀ {part : List Entry}, .call id' call' ∈ part → id' ∈ callIds part := fun hpart =>
    mem_callIds.mpr ⟨call', hpart⟩
  rcases List.mem_append.mp hmem with hlater | hmem
  · exact Or.inl ⟨hlater, hcross id' (hin hlater) id List.mem_cons_self⟩
  · rcases List.mem_cons.mp hmem with hsame | hearlier
    · exact Or.inr (Or.inl (Entry.call.inj hsame))
    · exact Or.inr (Or.inr ⟨hearlier, (List.pairwise_cons.mp hright).1 id' (hin hearlier)⟩)

/-- **The last `put` that had called back is committed last**, until a later one is. -/
theorem Inv.lastCommitted (h : Inv c rows s) {id i size offset length : Nat} {data : Bytes}
    (he : Expected c s.log id i size offset length data)
    (hbefore : ∀ id' i' data', .committed id' i' data' ∈ s.log → id' < id) :
    lastCommitted s.log i = some data := by
  obtain ⟨later, get, earlier, heq, -, later', putId, put, earlier', heq', hput, hno, hdone⟩ := he
  have hearlier : ∀ e ∈ earlier, e ∈ s.log := by
    intro e hmem
    rw [heq]
    exact List.mem_append_right later (List.mem_cons_of_mem _ hmem)
  have hcall : .call putId put ∈ earlier := by
    rw [heq']
    exact List.mem_append_right later' List.mem_cons_self
  have hmem : .done putId (.ok none) ∈ earlier := by
    rw [heq']
    exact List.mem_append_left _ hdone
  obtain ⟨-, -, houtcome⟩ := h.done putId (.ok none) (hearlier _ hmem)
  have hcommitted := (houtcome i data ⟨put, hearlier _ hcall, hput⟩).mp rfl
  obtain ⟨id', data', hlast, hcommitted', hle⟩ := lastCommitted_of_mem h.commits hcommitted
  obtain ⟨⟨call', hcall', hput'⟩, -⟩ := h.committed id' i data' hcommitted'
  have hlt := hbefore id' i data' hcommitted'
  -- what was committed last was called before the `get`, and not after the last `put`
  obtain hin | ⟨hin, -⟩ | ⟨hin, -⟩ := call_lt h.calls heq hcall'
  · exact absurd hlt (Nat.lt_asymm hin.2)
  · exact absurd hin hlt.ne
  · have hcalls := h.calls
    rw [heq] at hcalls
    unfold callIds at hcalls
    rw [List.filterMap_append, List.pairwise_append] at hcalls
    have hrest : (callIds earlier).Pairwise (· > ·) := (List.pairwise_cons.mp hcalls.2.1).2
    obtain hin' | ⟨-, rfl⟩ | ⟨-, hlt'⟩ := call_lt hrest heq' hin
    · exact absurd hput' (hno id' call' data' hin'.1)
    · rw [hput] at hput'
      rw [hlast, (Job.put.inj (Except.ok.inj hput')).2]
    · exact absurd hlt' (Nat.not_lt.mpr hle)

/-- What a `get` is to return is in the row of its piece. -/
theorem Inv.row (h : Inv c rows s) {id i size offset length : Nat} {data : Bytes}
    (he : Expected c s.log id i size offset length data)
    (hbefore : ∀ id' i' data', .committed id' i' data' ∈ s.log → id' < id) :
    s.rows i = some (c.row data) := by
  rw [h.stored i, h.lastCommitted he hbefore]

/-! ## §3. Steps. -/

theorem notMem_of_pairwise {a b : List Nat} {x : Nat} (h : (a ++ x :: b).Pairwise (· < ·)) : x ∉ a ++ b := by
  obtain ⟨-, hright, hcross⟩ := List.pairwise_append.mp h
  intro hmem
  rcases List.mem_append.mp hmem with hmem | hmem
  · exact lt_irrefl x (hcross x hmem x List.mem_cons_self)
  · exact lt_irrefl x ((List.pairwise_cons.mp hright).1 x hmem)

/-- Some calls leave the queues. -/
theorem Inv.shrink (h : Inv c rows s) {txs : List Tx} {waiting : List (Nat × Job)}
    {starting : List (Nat × Call)} (htxs : txs.Sublist s.txs) (hwaiting : waiting.Sublist s.waiting)
    (hstarting : starting.Sublist s.starting) : Inv c rows { s with txs, waiting, starting } := by
  have hqueue : (State.queue { s with txs, waiting, starting }).Sublist s.queue :=
    ((htxs.map Tx.id).append (hwaiting.map Prod.fst)).append (hstarting.map Prod.fst)
  exact
    { h with
      clear := h.clear.sublist htxs
      captured := fun tx htx => h.captured tx (htxs.subset htx)
      queue := h.queue.sublist hqueue
      fresh := fun id hid => h.fresh id (hqueue.subset hid)
      starting := fun x hx => h.starting x (hstarting.subset hx)
      waiting := fun x hx => h.waiting x (hwaiting.subset hx)
      txs := fun tx htx => h.txs tx (htxs.subset htx)
      committed := fun id i data hmem =>
        ⟨(h.committed id i data hmem).1, fun id' hid' => (h.committed id i data hmem).2 id' (hqueue.subset hid')⟩
      returned := fun x hx =>
        ⟨(h.returned x hx).1, fun hid => (h.returned x hx).2.1 (hqueue.subset hid), (h.returned x hx).2.2⟩
      done := fun id result hmem =>
        ⟨(h.done id result hmem).1, fun hid => (h.done id result hmem).2.1 (hqueue.subset hid),
          (h.done id result hmem).2.2⟩ }

/-- Calls go on, and keep their places. -/
theorem Inv.rearrange (h : Inv c rows s) {txs : List Tx} {waiting : List (Nat × Job)}
    {starting : List (Nat × Call)} (hqueue : State.queue { s with txs, waiting, starting } = s.queue)
    (hclear : txs.Pairwise Clear)
    (hcaptured : ∀ tx ∈ txs, ∀ row, tx.ran = some row → row = s.rows tx.job.index)
    (hstarting : ∀ x ∈ starting, .call x.1 x.2 ∈ s.log)
    (hwaiting : ∀ x ∈ waiting, Accepted c s.log x.1 x.2)
    (htxs : ∀ tx ∈ txs, Accepted c s.log tx.id tx.job) : Inv c rows { s with txs, waiting, starting } :=
  { h with
    clear := hclear
    captured := hcaptured
    queue := by
      rw [hqueue]
      exact h.queue
    fresh := by
      rw [hqueue]
      exact h.fresh
    starting := hstarting
    waiting := hwaiting
    txs := htxs
    committed := by
      rw [hqueue]
      exact h.committed
    returned := by
      rw [hqueue]
      exact h.returned
    done := by
      rw [hqueue]
      exact h.done }

/-- A promise is settled. -/
theorem Inv.settle (h : Inv c rows s) {id : Nat} {result : Result} (hid : id < s.next)
    (hnot : id ∉ s.queue) (ho : Outcome c s.log id result) (ha : Answered c s.log id result) :
    Inv c rows (s.settle id result) :=
  { h with
    returned := fun x hx => by
      rcases List.mem_append.mp hx with hx | hx
      · exact h.returned x hx
      · rw [List.mem_singleton.mp hx]
        exact ⟨hid, hnot, ho, ha⟩ }

/-- An entry that is neither a call nor a commit. -/
def Entry.Quiet : Entry → Prop
  | .call _ _ => False
  | .committed _ _ _ => False
  | _ => True

theorem answered_cons {log : List Entry} {e : Entry} (hne : ∀ id result, e ≠ .done id result)
    (h : ∀ later earlier id result, log = later ++ .done id result :: earlier → Answered c earlier id result)
    (later earlier : List Entry) (id : Nat) (result : Result)
    (heq : e :: log = later ++ .done id result :: earlier) : Answered c earlier id result := by
  cases later with
  | nil => exact absurd (List.cons.inj heq).1 (hne id result)
  | cons first later => exact h later earlier id result (List.cons.inj heq).2

theorem Inv.quiet (h : Inv c rows s) {e : Entry} (he : e.Quiet)
    (hdone : ∀ id result, e = .done id result → id < s.next ∧ id ∉ s.queue ∧
      Outcome c s.log id result ∧ Answered c s.log id result) :
    Inv c rows { s with log := e :: s.log } := by
  have hcall : ∀ id call, e ≠ .call id call := by
    rintro id call rfl
    exact he
  have hcommit : ∀ id i data, e ≠ .committed id i data := by
    rintro id i data rfl
    exact he
  have hcalls : callIds (e :: s.log) = callIds s.log := by
    cases e with
    | call id call => exact he.elim
    | committed id i data => exact he.elim
    | close => rfl
    | fault id => rfl
    | done id result => rfl
    | closed => rfl
  have hcommits : commitIds (e :: s.log) = commitIds s.log := by
    cases e with
    | call id call => exact he.elim
    | committed id i data => exact he.elim
    | close => rfl
    | fault id => rfl
    | done id result => rfl
    | closed => rfl
  have hlast : PieceStore.lastCommitted (e :: s.log) = PieceStore.lastCommitted s.log := by
    funext i
    cases e with
    | call id call => exact he.elim
    | committed id i data => exact he.elim
    | close => rfl
    | fault id => rfl
    | done id result => rfl
    | closed => rfl
  exact
    { h with
      stored := fun i => by
        rw [hlast]
        exact h.stored i
      closed := fun hc => List.mem_cons_of_mem e (h.closed hc)
      calls := by
        rw [hcalls]
        exact h.calls
      called := fun id hid => h.called id (hcalls ▸ hid)
      starting := fun x hx => List.mem_cons_of_mem e (h.starting x hx)
      waiting := fun x hx => (h.waiting x hx).cons e
      txs := fun tx htx => (h.txs tx htx).cons e
      commits := by
        rw [hcommits]
        exact h.commits
      committed := fun id i data hmem => by
        have hold := (List.mem_cons.mp hmem).resolve_left fun heq => hcommit id i data heq.symm
        obtain ⟨hacc, hbefore⟩ := h.committed id i data hold
        exact ⟨hacc.cons e, hbefore⟩
      returned := fun x hx => by
        obtain ⟨hid, hnot, ho, ha⟩ := h.returned x hx
        exact ⟨hid, hnot, ho.cons (hcall x.1) (hcommit x.1), ha.cons (hcall x.1)⟩
      done := fun id result hmem => by
        rcases List.mem_cons.mp hmem with heq | hold
        · obtain ⟨hid, hnot, ho, -⟩ := hdone id result heq.symm
          exact ⟨hid, hnot, ho.cons (hcall id) (hcommit id)⟩
        · obtain ⟨hid, hnot, ho⟩ := h.done id result hold
          exact ⟨hid, hnot, ho.cons (hcall id) (hcommit id)⟩
      answered := fun later earlier id result heq => by
        cases later with
        | nil =>
          obtain ⟨he', rfl⟩ := List.cons.inj heq
          exact (hdone id result he').2.2.2
        | cons first later => exact h.answered later earlier id result (List.cons.inj heq).2 }

/-- **The database fails** for a call that has left the queues. -/
theorem Inv.fail (h : Inv c rows s) {id : Nat} (fault : Fault) (hid : id < s.next) (hnot : id ∉ s.queue)
    (hbefore : ∀ id' i data, .committed id' i data ∈ s.log → id' < id) : Inv c rows (s.fail id fault) := by
  have hquiet : Inv c rows { s with log := .fault id :: s.log } := h.quiet trivial fun id result heq => by cases heq
  have houtcome : Outcome c (.fault id :: s.log) id (.error (storageError fault)) := by
    refine fun i data _ => iff_of_false (fun heq => by cases heq) fun hmem => ?_
    exact lt_irrefl id (hbefore id i data ((List.mem_cons.mp hmem).resolve_left fun heq => by cases heq))
  have hanswered : Answered c (.fault id :: s.log) id (.error (storageError fault)) :=
    fun i size offset length data _ => Or.inr (Or.inr ⟨⟨fault, rfl⟩, List.mem_cons_self⟩)
  exact hquiet.settle hid hnot houtcome hanswered

/-- **A call.** -/
theorem Inv.call (h : Inv c rows s) (call : Call) {s' : State} (hstep : step c s (.call call) = some s') :
    Inv c rows s' := by
  -- The call gets the next number, which no entry of the log has.
  have hnew : ∀ x, x ∈ callIds s.log → x ≠ s.next := fun x hx => (h.called x hx).ne
  have hfresh : ∀ {id : Nat}, id < s.next → ∀ other, Entry.call s.next call ≠ .call id other :=
    fun hid other heq => hid.ne (Entry.call.inj heq).1.symm
  have hqueue : s.next ∉ s.queue := fun hid => lt_irrefl _ (h.fresh _ hid)
  -- Logging it keeps everything that is said of earlier calls.
  have hlogged : Inv c rows { s with next := s.next + 1, log := .call s.next call :: s.log } :=
    { h with
      closed := fun hc => List.mem_cons_of_mem _ (h.closed hc)
      fresh := fun id hid => (h.fresh id hid).trans (Nat.lt_succ_self _)
      calls := List.pairwise_cons.mpr ⟨fun id hid => h.called id hid, h.calls⟩
      called := fun id hid => by
        rcases List.mem_cons.mp hid with rfl | hid
        · exact Nat.lt_succ_self _
        · exact (h.called id hid).trans (Nat.lt_succ_self _)
      starting := fun x hx => List.mem_cons_of_mem _ (h.starting x hx)
      waiting := fun x hx => (h.waiting x hx).cons _
      txs := fun tx htx => (h.txs tx htx).cons _
      committed := fun id i data hmem => by
        have hold := (List.mem_cons.mp hmem).resolve_left fun heq => by cases heq
        exact ⟨(h.committed id i data hold).1.cons _, (h.committed id i data hold).2⟩
      returned := fun x hx => by
        obtain ⟨hid, hnot, ho, ha⟩ := h.returned x hx
        exact ⟨hid.trans (Nat.lt_succ_self _), hnot,
          ho.cons (hfresh hid) (fun _ _ heq => by cases heq), ha.cons (hfresh hid)⟩
      done := fun id result hmem => by
        have hold := (List.mem_cons.mp hmem).resolve_left fun heq => by cases heq
        obtain ⟨hid, hnot, ho⟩ := h.done id result hold
        exact ⟨hid.trans (Nat.lt_succ_self _), hnot, ho.cons (hfresh hid) fun _ _ heq => by cases heq⟩
      answered := answered_cons (fun _ _ heq => by cases heq) h.answered }
  have hcommitted : ∀ i data, .committed s.next i data ∉ Entry.call s.next call :: s.log := by
    intro i data hmem
    have hold := (List.mem_cons.mp hmem).resolve_left fun heq => by cases heq
    exact hnew _ (h.committed s.next i data hold).1.mem_callIds rfl
  unfold step at hstep
  dsimp only at hstep
  split at hstep
  -- A closed store refuses the call at once.
  next hclosed =>
    rw [← Option.some.inj hstep]
    refine hlogged.settle (Nat.lt_succ_self _) hqueue (fun i data _ => ?_) fun i size offset length data _ => ?_
    · exact iff_of_false (fun heq => by cases heq) (hcommitted i data)
    · exact Or.inr (Or.inl ⟨rfl, List.mem_cons_of_mem _ (h.closed hclosed)⟩)
  next hopen =>
    rw [← Option.some.inj hstep]
    -- An open one lets it wait, behind all the others.
    have hlonger : ∀ id, id ∈ s.txs.map Tx.id ++ s.waiting.map Prod.fst ++
        (s.starting ++ [(s.next, call)]).map Prod.fst → id ∈ s.queue ∨ id = s.next := by
      intro id hid
      rw [List.map_append, ← List.append_assoc] at hid
      rcases List.mem_append.mp hid with hid | hid
      · exact Or.inl hid
      · exact Or.inr (List.mem_singleton.mp hid)
    exact
      { hlogged with
        queue := by
          show (s.txs.map Tx.id ++ s.waiting.map Prod.fst ++
            (s.starting ++ [(s.next, call)]).map Prod.fst).Pairwise (· < ·)
          rw [List.map_append, ← List.append_assoc]
          refine List.pairwise_append.mpr ⟨h.queue, List.pairwise_singleton _ _, fun id hid id' hid' => ?_⟩
          rw [List.mem_singleton.mp hid']
          exact h.fresh id hid
        fresh := fun id hid => by
          rcases hlonger id hid with hid | rfl
          · exact hlogged.fresh id hid
          · exact Nat.lt_succ_self _
        starting := fun x hx => by
          rcases List.mem_append.mp hx with hx | hx
          · exact hlogged.starting x hx
          · rw [List.mem_singleton.mp hx]
            exact List.mem_cons_self
        committed := fun id i data hmem => by
          obtain ⟨hacc, hbefore⟩ := hlogged.committed id i data hmem
          refine ⟨hacc, fun id' hid' => ?_⟩
          rcases hlonger id' hid' with hid' | rfl
          · exact hbefore id' hid'
          · have hold := (List.mem_cons.mp hmem).resolve_left fun heq => by cases heq
            exact h.called id (h.committed id i data hold).1.mem_callIds
        returned := fun x hx => by
          obtain ⟨hid, hnot, ho⟩ := hlogged.returned x hx
          refine ⟨hid, fun hmem => ?_, ho⟩
          rcases hlonger x.1 hmem with hmem | heq
          · exact hnot hmem
          · exact (h.returned x hx).1.ne heq
        done := fun id result hmem => by
          obtain ⟨hid, hnot, ho⟩ := hlogged.done id result hmem
          refine ⟨hid, fun hq => ?_, ho⟩
          have hold := (List.mem_cons.mp hmem).resolve_left fun heq => by cases heq
          rcases hlonger id hq with hq | heq
          · exact hnot hq
          · exact (h.done id result hold).1.ne heq }

/-- The first call of a queue leaves it. -/
theorem Inv.take (h : Inv c rows s) {txs : List Tx} {waiting : List (Nat × Job)}
    {starting : List (Nat × Call)} {id : Nat} (htxs : txs.Sublist s.txs)
    (hwaiting : waiting.Sublist s.waiting) (hstarting : starting.Sublist s.starting)
    {a b : List Nat} (hqueue : s.queue = a ++ id :: b)
    (hrest : State.queue { s with txs, waiting, starting } = a ++ b) :
    Inv c rows { s with txs, waiting, starting } ∧ id < s.next ∧
      id ∉ State.queue { s with txs, waiting, starting } ∧
      ∀ id' i data, .committed id' i data ∈ s.log → id' < id := by
  have hmem : id ∈ s.queue := by
    rw [hqueue]
    exact List.mem_append_right a List.mem_cons_self
  have hpair := h.queue
  rw [hqueue] at hpair
  refine ⟨h.shrink htxs hwaiting hstarting, h.fresh id hmem, ?_,
    fun id' i data hc => (h.committed id' i data hc).2 id hmem⟩
  rw [hrest]
  exact notMem_of_pairwise hpair

/-- **A piece that is in RAM.** -/
theorem Inv.lookup (h : Inv c rows s) {id i size offset length : Nat} (hid : id < s.next)
    (hnot : id ∉ s.queue) (hbefore : ∀ id' i data, .committed id' i data ∈ s.log → id' < id)
    (hacc : Accepted c s.log id (.get i size offset length)) {s' : State}
    (hs : s.lookup id i offset length = some s') : Inv c rows s' := by
  unfold State.lookup at hs
  obtain ⟨p, hfind, rfl⟩ := Option.map_eq_some_iff.mp hs
  obtain ⟨htotal, hkeys, hsub⟩ := touch_spec h.keys hfind
  obtain ⟨hkey, hmem, -⟩ := total_find h.keys hfind
  have htouched : Inv c rows { s with cache := without s.cache i ++ [(i, p.2)] } :=
    { h with
      memory := h.memory.trans htotal.symm
      keys := hkeys
      cached := fun q hq => h.cached q (hsub q hq) }
  refine htouched.settle hid hnot (fun i' data hput => ?_) fun i' size' offset' length' data he => ?_
  · cases hacc.unique h.nodup hput
  · obtain ⟨rfl, rfl, rfl, rfl⟩ := Job.get.inj (hacc.unique h.nodup he.accepted)
    obtain ⟨row, hrow, hdata⟩ := h.cached p hmem
    rw [hkey, h.row he hbefore] at hrow
    rw [← Option.some.inj hrow] at hdata
    rw [Option.some.inj hdata]
    exact Or.inl rfl

/-- **The first turn of a call.** -/
theorem Inv.begin (h : Inv c rows s) {id : Nat} {call : Call} {rest : List (Nat × Call)}
    (hs : s.starting = (id, call) :: rest) : Inv c rows (State.begin c { s with starting := rest } id call) := by
  have hqueue : s.queue = (s.txs.map Tx.id ++ s.waiting.map Prod.fst) ++ id :: rest.map Prod.fst := by
    unfold State.queue
    rw [hs]
    rfl
  have hsub : rest.Sublist s.starting := by
    rw [hs]
    exact List.sublist_cons_self _ _
  obtain ⟨hrest, hid, hnot, hbefore⟩ :=
    h.take (List.Sublist.refl s.txs) (List.Sublist.refl s.waiting) hsub hqueue rfl
  have hcall : .call id call ∈ s.log := by
    refine h.starting (id, call) ?_
    rw [hs]
    exact List.mem_cons_self
  -- the call stays at its place among all that have not settled
  have hwait : ∀ job, c.accept call = .ok job →
      Inv c rows { s with starting := rest, waiting := s.waiting ++ [(id, job)] } := by
    intro job hjob
    have hsame : State.queue { s with starting := rest, waiting := s.waiting ++ [(id, job)] } = s.queue := by
      rw [hqueue]
      unfold State.queue
      rw [List.map_append, List.append_assoc, List.append_assoc, List.append_assoc]
      rfl
    refine h.rearrange hsame h.clear h.captured (fun x hx => h.starting x (hsub.subset hx))
      (fun x hx => ?_) h.txs
    rcases List.mem_append.mp hx with hx | hx
    · exact h.waiting x hx
    · rw [List.mem_singleton.mp hx]
      exact ⟨call, hcall, hjob⟩
  unfold State.begin
  split
  next code hjob =>
    refine hrest.settle hid hnot (fun i data hput => ?_) fun i size offset length data he => ?_
    · exact iff_of_false (fun heq => by cases heq) fun hmem => lt_irrefl id (hbefore id i data hmem)
    · obtain ⟨call', hcall', hget⟩ := he.accepted
      rw [call_unique h.nodup hcall' hcall, hjob] at hget
      cases hget
  next i data hjob => exact hwait _ hjob
  next i size offset length hjob =>
    cases hlook : State.lookup { s with starting := rest } id i offset length with
    | none => exact hwait _ hjob
    | some s' => exact hrest.lookup hid hnot hbefore ⟨call, hcall, hjob⟩ hlook

/-- **A transaction** is made, or cannot be made. -/
theorem Inv.open (h : Inv c rows s) {id : Nat} {job : Job} {rest : List (Nat × Job)}
    (hw : s.waiting = (id, job) :: rest) (ready : Except Fault Unit) (throws : Option Fault) :
    Inv c rows (State.open { s with waiting := rest } id job ready throws) := by
  have hqueue : s.queue = s.txs.map Tx.id ++ id :: (rest.map Prod.fst ++ s.starting.map Prod.fst) := by
    unfold State.queue
    rw [hw, List.append_assoc]
    rfl
  have hsub : rest.Sublist s.waiting := by
    rw [hw]
    exact List.sublist_cons_self _ _
  obtain ⟨hrest, hid, hnot, hbefore⟩ :=
    h.take (List.Sublist.refl s.txs) hsub (List.Sublist.refl s.starting) hqueue
      (List.append_assoc _ _ _)
  have hacc : Accepted c s.log id job := by
    refine h.waiting (id, job) ?_
    rw [hw]
    exact List.mem_cons_self
  have hsame : State.queue { s with waiting := rest, txs := s.txs ++ [{ id, job, ran := none }] } =
      s.queue := by
    rw [hqueue]
    unfold State.queue
    rw [List.map_append, List.append_assoc, List.append_assoc]
    rfl
  cases ready with
  | error fault => exact hrest.fail fault hid hnot hbefore
  | ok u =>
    cases throws with
    | some fault => exact hrest.fail fault hid hnot hbefore
    | none =>
      refine h.rearrange hsame ?_ (fun tx htx row hrow => ?_) h.starting
        (fun x hx => h.waiting x (hsub.subset hx)) fun tx htx => ?_
      · refine List.pairwise_append.mpr ⟨h.clear, List.pairwise_singleton _ _, fun a _ b hb hran => ?_⟩
        rw [List.mem_singleton.mp hb] at hran
        cases hran
      · rcases List.mem_append.mp htx with htx | htx
        · exact h.captured tx htx row hrow
        · rw [List.mem_singleton.mp htx] at hrow
          cases hrow
      · rcases List.mem_append.mp htx with htx | htx
        · exact h.txs tx htx
        · rw [List.mem_singleton.mp htx]
          exact hacc

/-- **A transaction runs.** -/
theorem Inv.run (h : Inv c rows s) {k : Nat} {tx : Tx} (htx : s.txs[k]? = some tx)
    (hrun : s.mayRun k tx = true) :
    Inv c rows { s with txs := s.txs.set k { tx with ran := some (s.rows tx.job.index) } } := by
  obtain ⟨hk, hget⟩ := List.getElem?_eq_some_iff.mp htx
  have hsplit : s.txs = s.txs.take k ++ tx :: s.txs.drop (k + 1) := by
    rw [← hget, ← List.drop_eq_getElem_cons hk, List.take_append_drop]
  have hset : s.txs.set k { tx with ran := some (s.rows tx.job.index) } =
      s.txs.take k ++ { tx with ran := some (s.rows tx.job.index) } :: s.txs.drop (k + 1) := by
    rw [List.set_eq_take_append_cons_drop, if_pos hk]
  have hclear := h.clear
  rw [hsplit] at hclear
  obtain ⟨hbefore, hafter, hcross⟩ := List.pairwise_append.mp hclear
  obtain ⟨hfirst, hlast⟩ := List.pairwise_cons.mp hafter
  have hmem : ∀ other ∈ s.txs.set k { tx with ran := some (s.rows tx.job.index) },
      other ∈ s.txs ∨ other = { tx with ran := some (s.rows tx.job.index) } := by
    intro other hother
    exact (List.mem_or_eq_of_mem_set hother)
  have hin : tx ∈ s.txs := List.mem_of_getElem? htx
  refine h.rearrange ?_ ?_ (fun other hother row hrow => ?_) h.starting h.waiting fun other hother => ?_
  · have hids : (s.txs.set k { tx with ran := some (s.rows tx.job.index) }).map Tx.id = s.txs.map Tx.id := by
      rw [hset, List.map_append, List.map_cons]
      conv_rhs => rw [hsplit, List.map_append, List.map_cons]
    unfold State.queue
    rw [hids]
  · rw [hset]
    refine List.pairwise_append.mpr ⟨hbefore, List.pairwise_cons.mpr ⟨hfirst, hlast⟩, ?_⟩
    intro a ha b hb
    rcases List.mem_cons.mp hb with rfl | hb
    · intro _
      have hfree := List.all_eq_true.mp hrun a ha
      exact Bool.not_eq_true' _ ▸ (Bool.and_eq_true_iff.mp hfree).1
    · exact hcross a ha b (List.mem_cons_of_mem tx hb)
  · rcases hmem other hother with hother | rfl
    · exact h.captured other hother row hrow
    · exact (Option.some.inj hrow).symm
  · rcases hmem other hother with hother | rfl
    · exact h.txs other hother
    · exact h.txs tx hin

/-- The first transaction of all leaves. -/
theorem Inv.first (h : Inv c rows s) {tx : Tx} {rest : List Tx} (hs : s.txs = tx :: rest) :
    (s.queue = tx.id :: State.queue { s with txs := rest } ∧ Accepted c s.log tx.id tx.job ∧
      ∀ row, tx.ran = some row → row = s.rows tx.job.index) ∧
    Inv c rows { s with txs := rest } ∧ tx.id < s.next ∧ tx.id ∉ State.queue { s with txs := rest } ∧
      ∀ id i data, .committed id i data ∈ s.log → id < tx.id := by
  have hqueue : s.queue = [] ++ tx.id :: State.queue { s with txs := rest } := by
    unfold State.queue
    rw [hs]
    rfl
  have hsub : rest.Sublist s.txs := by
    rw [hs]
    exact List.sublist_cons_self _ _
  have hin : tx ∈ s.txs := by
    rw [hs]
    exact List.mem_cons_self
  exact ⟨⟨hqueue, h.txs tx hin, h.captured tx hin⟩,
    h.take hsub (List.Sublist.refl s.waiting) (List.Sublist.refl s.starting) hqueue rfl⟩

/-- **A write is complete.** -/
theorem Inv.completePut (h : Inv c rows s) {tx : Tx} {rest : List Tx} (hs : s.txs = tx :: rest)
    {i : Nat} {data : Bytes} (hjob : tx.job = .put i data) (row : Option Row) :
    Inv c rows (State.complete c { s with txs := rest } tx row) := by
  obtain ⟨⟨hqueue, hacc, -⟩, hrest, hid, hnot, -⟩ := h.first hs
  rw [hjob] at hacc
  have hmem : tx.id ∈ s.queue := by
    rw [hqueue]
    exact List.mem_cons_self
  -- The entry that is logged says nothing of any other call.
  have hother : ∀ {id : Nat}, id ≠ tx.id → ∀ i' data',
      Entry.committed tx.id i data ≠ .committed id i' data' :=
    fun hne _ _ heq => hne (Entry.committed.inj heq).1.symm
  have hcall : ∀ id call, Entry.committed tx.id i data ≠ .call id call := by
    intro id call heq
    cases heq
  obtain ⟨pieces, hremember, hroom, hkeys, hpieces⟩ :=
    @remember_spec c.budget s.cache i h.keys (h.memory ▸ h.bounded) data
  rw [← h.memory] at hremember
  unfold State.complete
  rw [hjob]
  dsimp only
  unfold State.remembered
  dsimp only
  rw [hremember]
  -- no later transaction has run before this write was complete
  have hclear := h.clear
  rw [hs] at hclear
  have hwaits : ∀ other ∈ rest, other.ran = none := by
    intro other hmem
    have hwrites := (List.pairwise_cons.mp hclear).1 other hmem
    cases hran : other.ran with
    | none => rfl
    | some row =>
      have hfalse := hwrites (by rw [hran]; rfl)
      rw [hjob] at hfalse
      cases hfalse
  exact
    { hrest with
      memory := rfl
      bounded := hroom
      keys := hkeys
      cached := fun p hp => by
        rcases hpieces p hp with rfl | ⟨hold, hne⟩
        · exact ⟨c.row data, Function.update_self _ _ _, rfl⟩
        · obtain ⟨row, hrow, hdata⟩ := h.cached p hold
          exact ⟨row, (Function.update_of_ne hne _ _).trans hrow, hdata⟩
      stored := fun j => by
        by_cases hj : j = i
        · subst hj
          -- The last write of this piece is now the one that has just been committed.
          have hlast : PieceStore.lastCommitted (.committed tx.id j data :: s.log) j = some data := if_pos rfl
          rw [hlast]
          exact Function.update_self _ _ _
        · have hlast : PieceStore.lastCommitted (.committed tx.id i data :: s.log) j =
              PieceStore.lastCommitted s.log j := if_neg fun heq => hj heq.symm
          rw [hlast]
          exact (Function.update_of_ne hj _ _).trans (h.stored j)
      captured := fun other hother row hrow => by
        rw [hwaits other hother] at hrow
        cases hrow
      closed := fun hc => List.mem_cons_of_mem _ (h.closed hc)
      starting := fun x hx => List.mem_cons_of_mem _ (h.starting x hx)
      waiting := fun x hx => (h.waiting x hx).cons _
      txs := fun other hother => (hrest.txs other hother).cons _
      commits := by
        refine List.pairwise_cons.mpr ⟨fun id hid => ?_, h.commits⟩
        -- Whatever was committed before was queued before.
        obtain ⟨e, he, hid⟩ := List.mem_filterMap.mp hid
        split at hid
        next id' i' data' =>
          obtain rfl := Option.some.inj hid
          exact (h.committed id' i' data' he).2 tx.id hmem
        · cases hid
      committed := fun id j data' hc => by
        rcases List.mem_cons.mp hc with heq | hc
        · obtain ⟨rfl, rfl, rfl⟩ := Entry.committed.inj heq
          refine ⟨hacc.cons _, fun id' hid' => ?_⟩
          have hpair := h.queue
          rw [hqueue] at hpair
          exact (List.pairwise_cons.mp hpair).1 id' hid'
        · obtain ⟨hold, hbefore⟩ := hrest.committed id j data' hc
          exact ⟨hold.cons _, hbefore⟩
      returned := fun x hx => by
        rcases List.mem_append.mp hx with hx | hx
        · obtain ⟨hlt, hout, ho, ha⟩ := hrest.returned x hx
          have hne : x.1 ≠ tx.id := fun heq => (h.returned x hx).2.1 (heq ▸ hmem)
          exact ⟨hlt, hout, ho.cons (hcall x.1) (hother hne), ha.cons (hcall x.1)⟩
        · rw [List.mem_singleton.mp hx]
          refine ⟨hid, hnot, fun j data' hput => ?_, fun j size offset length data' he => ?_⟩
          · have hsame := (hput.of_cons (hcall tx.id)).unique h.nodup hacc
            obtain ⟨rfl, rfl⟩ := Job.put.inj hsame
            exact iff_of_true rfl List.mem_cons_self
          · cases (he.accepted.of_cons (hcall tx.id)).unique h.nodup hacc
      done := fun id result hd => by
        have hold := (List.mem_cons.mp hd).resolve_left fun heq => by cases heq
        obtain ⟨hlt, hout, ho⟩ := hrest.done id result hold
        have hne : id ≠ tx.id := fun heq => (h.done id result hold).2.1 (heq ▸ hmem)
        exact ⟨hlt, hout, ho.cons (hcall id) (hother hne)⟩
      answered := answered_cons (fun _ _ heq => by cases heq) h.answered }

/-- A row that is accepted has the data that goes into RAM. -/
theorem read_some {size : Nat} {row : Option Row} {data : Bytes} (h : c.read size row = some data) :
    ∃ r, row = some r ∧ r.data = some data := by
  unfold Config.read at h
  split at h
  · cases h
  next r =>
    split at h
    · cases h
    · exact ⟨r, rfl, (Option.filter_eq_some_iff.mp h).1⟩

/-- **A read is complete.** -/
theorem Inv.completeGet (h : Inv c rows s) {tx : Tx} {rest : List Tx} (hs : s.txs = tx :: rest)
    {i size offset length : Nat} (hjob : tx.job = .get i size offset length) {row : Option Row}
    (hran : tx.ran = some row) : Inv c rows (State.complete c { s with txs := rest } tx row) := by
  obtain ⟨⟨-, hacc, hcaptured⟩, hrest, hid, hnot, hbefore⟩ := h.first hs
  -- the row is still in the database
  rw [hjob] at hacc hcaptured
  have hrow : row = s.rows i := hcaptured row hran
  have hread : ∀ {data : Bytes}, Expected c s.log tx.id i size offset length data →
      c.read size row = some data := by
    intro data he
    obtain ⟨call, -, hget⟩ := hacc
    obtain ⟨-, -, -, -, -, -, -, put, -, -, hput, -⟩ := id he
    rw [hrow, h.row he hbefore, (accept_get hget).1]
    exact read_row (accept_put hput)
  have houtcome : ∀ result, Outcome c s.log tx.id result := by
    intro result i' data hput
    cases hacc.unique h.nodup hput
  unfold State.complete
  rw [hjob]
  dsimp only
  cases hdata : c.read size row with
  | none =>
    refine hrest.settle hid hnot (houtcome _) fun i' size' offset' length' data he => ?_
    obtain ⟨rfl, rfl, rfl, rfl⟩ := Job.get.inj (hacc.unique h.nodup he.accepted)
    rw [hread he] at hdata
    cases hdata
  | some data =>
    obtain ⟨pieces, hremember, hroom, hkeys, hpieces⟩ :=
      @remember_spec c.budget s.cache i h.keys (h.memory ▸ h.bounded) data
    rw [← h.memory] at hremember
    unfold State.remembered
    dsimp only
    rw [hremember]
    have hcached : Inv c rows { s with txs := rest, cache := pieces, memoryBytes := total pieces } :=
      { hrest with
        memory := rfl
        bounded := hroom
        keys := hkeys
        cached := fun p hp => by
          rcases hpieces p hp with rfl | ⟨hold, -⟩
          · obtain ⟨r, hr, hrdata⟩ := read_some hdata
            exact ⟨r, hrow.symm.trans hr, hrdata⟩
          · exact h.cached p hold }
    have hanswered : Answered c s.log tx.id (.ok (some (slice data offset length))) := by
      intro i' size' offset' length' data' he
      obtain ⟨rfl, rfl, rfl, rfl⟩ := Job.get.inj (hacc.unique h.nodup he.accepted)
      rw [hread he] at hdata
      rw [Option.some.inj hdata]
      exact Or.inl rfl
    exact hcached.settle hid hnot (houtcome _) hanswered

/-- **A transaction fails.** -/
theorem Inv.abort (h : Inv c rows s) {k : Nat} {tx : Tx} (htx : s.txs[k]? = some tx) (fault : Fault) :
    Inv c rows (State.fail { s with txs := s.txs.eraseIdx k } tx.id fault) := by
  obtain ⟨hk, hget⟩ := List.getElem?_eq_some_iff.mp htx
  have hsplit : s.txs = s.txs.take k ++ tx :: s.txs.drop (k + 1) := by
    rw [← hget, ← List.drop_eq_getElem_cons hk, List.take_append_drop]
  have herase : s.txs.eraseIdx k = s.txs.take k ++ s.txs.drop (k + 1) := List.eraseIdx_eq_take_drop_succ _ _
  have hqueue : s.queue = (s.txs.take k).map Tx.id ++ tx.id :: ((s.txs.drop (k + 1)).map Tx.id ++
      (s.waiting.map Prod.fst ++ s.starting.map Prod.fst)) := by
    unfold State.queue
    conv_lhs => rw [hsplit, List.map_append, List.map_cons]
    rw [List.append_assoc, List.append_assoc]
    rfl
  have hleft : State.queue { s with txs := s.txs.eraseIdx k } = (s.txs.take k).map Tx.id ++
      ((s.txs.drop (k + 1)).map Tx.id ++ (s.waiting.map Prod.fst ++ s.starting.map Prod.fst)) := by
    unfold State.queue
    dsimp only
    rw [herase, List.map_append, List.append_assoc, List.append_assoc]
  obtain ⟨hrest, hid, hnot, hbefore⟩ :=
    h.take (List.eraseIdx_sublist s.txs k) (List.Sublist.refl s.waiting) (List.Sublist.refl s.starting)
      hqueue hleft
  exact hrest.fail fault hid hnot hbefore

/-- **A callback.** -/
theorem Inv.callback (h : Inv c rows s) {k : Nat} {x : Nat × Result} (hx : s.returning[k]? = some x) :
    Inv c rows { s with
      returning := s.returning.eraseIdx k, pending := s.pending.erase x.1,
      log := .done x.1 x.2 :: s.log } := by
  have hless : Inv c rows { s with
      returning := s.returning.eraseIdx k, pending := s.pending.erase x.1 } :=
    { h with returned := fun y hy => h.returned y ((List.eraseIdx_sublist _ k).subset hy) }
  refine hless.quiet trivial fun id result heq => ?_
  obtain ⟨rfl, rfl⟩ := Entry.done.inj heq
  exact h.returned x (List.mem_of_getElem? hx)

/-- **One step.** -/
theorem inv_step (c : Config) (rows : Nat → Option Row) (s : State) (e : Event) (s' : State)
    (h : Inv c rows s) (hstep : step c s e = some s') : Inv c rows s' := by
  have hnone : ∀ {e : Entry}, (∀ id result, e ≠ .done id result) → ∀ id result,
      e = .done id result → id < s.next ∧ id ∉ s.queue ∧ Outcome c s.log id result ∧
        Answered c s.log id result := fun hne id result heq => absurd heq (hne id result)
  cases e with
  | call call => exact h.call call hstep
  | close =>
    rw [← Option.some.inj hstep]
    have hquiet : Inv c rows { s with log := .close :: s.log } :=
      h.quiet trivial (hnone fun id result heq => by cases heq)
    exact { hquiet with closed := fun _ => List.mem_cons_self }
  | ready result =>
    unfold step at hstep
    dsimp only at hstep
    split at hstep
    · cases hstep
    · rw [← Option.some.inj hstep]
      exact { h with }
  | start =>
    unfold step at hstep
    dsimp only at hstep
    split at hstep
    · cases hstep
    next id call rest hs =>
      rw [← Option.some.inj hstep]
      exact h.begin hs
  | resume throws =>
    unfold step at hstep
    dsimp only at hstep
    split at hstep
    next ready id job rest hready hw =>
      rw [← Option.some.inj hstep]
      exact h.open hw ready throws
    · cases hstep
  | run k =>
    obtain ⟨tx, htx, hstep⟩ := Option.bind_eq_some_iff.mp hstep
    split at hstep
    next hrun =>
      rw [← Option.some.inj hstep]
      exact h.run htx hrun.2
    · cases hstep
  | complete =>
    unfold step at hstep
    dsimp only at hstep
    split at hstep
    · cases hstep
    next tx rest hs =>
      obtain ⟨row, hran, rfl⟩ := Option.map_eq_some_iff.mp hstep
      cases hjob : tx.job with
      | put i data => exact h.completePut hs hjob row
      | get i size offset length => exact h.completeGet hs hjob hran
  | abort k fault =>
    obtain ⟨tx, htx, rfl⟩ := Option.map_eq_some_iff.mp hstep
    exact h.abort htx fault
  | callback k =>
    obtain ⟨x, hx, rfl⟩ := Option.map_eq_some_iff.mp hstep
    exact h.callback hx
  | clear k =>
    obtain ⟨closing, -, hstep⟩ := Option.bind_eq_some_iff.mp hstep
    split at hstep
    · rw [← Option.some.inj hstep]
      exact
        { h with
          memory := rfl
          bounded := Int.natCast_nonneg _
          keys := List.nodup_nil
          cached := fun p hp => by cases hp }
    · cases hstep
  | closed k =>
    obtain ⟨closing, -, hstep⟩ := Option.bind_eq_some_iff.mp hstep
    split at hstep
    · rw [← Option.some.inj hstep]
      have hquiet : Inv c rows { s with log := .closed :: s.log } :=
        h.quiet trivial (hnone fun id result heq => by cases heq)
      exact { hquiet with }
    · cases hstep

end Steps

/-! ## §4. A `put` that fails. -/

section Failed

variable {c : Config} {rows : Nat → Option Row} {s s' : State} {e : Event}

/-- Neither the pieces in RAM nor the rows. -/
def Untouched (s s' : State) : Prop :=
  s'.cache = s.cache ∧ s'.memoryBytes = s.memoryBytes ∧ s'.rows = s.rows

/-- What a step of a call does, if it touches anything: it reads for a `get`, or it commits a `put`. -/
inductive Touches (c : Config) (s s' : State) (id : Nat) : Prop
  | starts (call : Call) (hmem : (id, call) ∈ s.starting) (i size offset length : Nat)
      (hget : c.accept call = .ok (.get i size offset length))
  | reads (tx : Tx) (hmem : tx ∈ s.txs) (hid : tx.id = id) (i size offset length : Nat)
      (hget : tx.job = .get i size offset length)
  | commits (i : Nat) (data : Bytes) (hmem : .committed id i data ∈ s'.log)

/-- **All that a step does** to the log, the pieces and the rows. -/
theorem step_frame (h : step c s e = some s') : (∃ added, s'.log = added ++ s.log) ∧
    ∀ id, s.actor e = some id → Untouched s s' ∨ Touches c s s' id := by
  cases e with
  | call call =>
    unfold step at h
    dsimp only at h
    split at h
    · rw [← Option.some.inj h]
      exact ⟨⟨[_], rfl⟩, fun id _ => Or.inl ⟨rfl, rfl, rfl⟩⟩
    · rw [← Option.some.inj h]
      exact ⟨⟨[_], rfl⟩, fun id _ => Or.inl ⟨rfl, rfl, rfl⟩⟩
  | close =>
    rw [← Option.some.inj h]
    exact ⟨⟨[_], rfl⟩, fun id hactor => by cases hactor⟩
  | ready result =>
    unfold step at h
    dsimp only at h
    split at h
    · cases h
    · rw [← Option.some.inj h]
      exact ⟨⟨[], rfl⟩, fun id hactor => by cases hactor⟩
  | start =>
    unfold step at h
    dsimp only at h
    split at h
    · cases h
    next id' call rest hs =>
      have hmem : (id', call) ∈ s.starting := by
        rw [hs]
        exact List.mem_cons_self
      -- The call that starts is the first one that waits.
      have hactor : ∀ id, s.actor .start = some id → id' = id := by
        intro id hid
        unfold State.actor at hid
        rw [hs] at hid
        exact Option.some.inj hid
      rw [← Option.some.inj h]
      -- Only a `get` that finds its piece in memory touches the cache.
      unfold State.begin
      split
      · exact ⟨⟨[], rfl⟩, fun id _ => Or.inl ⟨rfl, rfl, rfl⟩⟩
      · exact ⟨⟨[], rfl⟩, fun id _ => Or.inl ⟨rfl, rfl, rfl⟩⟩
      next i size offset length hjob =>
        refine ⟨⟨[], ?_⟩, fun id hid => Or.inr (.starts call (hactor id hid ▸ hmem) i size offset length hjob)⟩
        unfold State.lookup
        cases List.find? (fun p => p.1 = i) s.cache with
        | none => rfl
        | some p => rfl
  | resume throws =>
    unfold step at h
    dsimp only at h
    split at h
    · rw [← Option.some.inj h]
      unfold State.open
      split
      · exact ⟨⟨[_], rfl⟩, fun id _ => Or.inl ⟨rfl, rfl, rfl⟩⟩
      · exact ⟨⟨[_], rfl⟩, fun id _ => Or.inl ⟨rfl, rfl, rfl⟩⟩
      · exact ⟨⟨[], rfl⟩, fun id _ => Or.inl ⟨rfl, rfl, rfl⟩⟩
    · cases h
  | run k =>
    obtain ⟨tx, htx, h⟩ := Option.bind_eq_some_iff.mp h
    split at h
    · rw [← Option.some.inj h]
      exact ⟨⟨[], rfl⟩, fun id _ => Or.inl ⟨rfl, rfl, rfl⟩⟩
    · cases h
  | complete =>
    unfold step at h
    dsimp only at h
    split at h
    · cases h
    next tx rest hs =>
      obtain ⟨row, hran, rfl⟩ := Option.map_eq_some_iff.mp h
      have hmem : tx ∈ s.txs := by
        rw [hs]
        exact List.mem_cons_self
      -- The transaction that completes is the first of its queue.
      have hactor : ∀ id, s.actor .complete = some id → tx.id = id := by
        intro id hid
        unfold State.actor at hid
        rw [hs] at hid
        exact Option.some.inj hid
      unfold State.complete
      split
      next i data hjob =>
        refine ⟨⟨[_], rfl⟩, fun id hid => Or.inr (.commits i data ?_)⟩
        rw [← hactor id hid]
        exact List.mem_cons_self
      next i size offset length hjob =>
        refine ⟨⟨[], ?_⟩, fun id hid => Or.inr (.reads tx hmem (hactor id hid) i size offset length hjob)⟩
        split
        · rfl
        · rfl
  | abort k fault =>
    obtain ⟨tx, htx, rfl⟩ := Option.map_eq_some_iff.mp h
    exact ⟨⟨[_], rfl⟩, fun id _ => Or.inl ⟨rfl, rfl, rfl⟩⟩
  | callback k =>
    obtain ⟨y, hy, rfl⟩ := Option.map_eq_some_iff.mp h
    exact ⟨⟨[_], rfl⟩, fun id _ => Or.inl ⟨rfl, rfl, rfl⟩⟩
  | clear k =>
    obtain ⟨closing, -, h⟩ := Option.bind_eq_some_iff.mp h
    split at h
    · rw [← Option.some.inj h]
      exact ⟨⟨[], rfl⟩, fun id hactor => by cases hactor⟩
    · cases h
  | closed k =>
    obtain ⟨closing, -, h⟩ := Option.bind_eq_some_iff.mp h
    split at h
    · rw [← Option.some.inj h]
      exact ⟨⟨[_], rfl⟩, fun id hactor => by cases hactor⟩
    · cases h

/-- Nothing is taken back from the log. -/
theorem step_log (h : step c s e = some s') : ∀ x ∈ s.log, x ∈ s'.log := by
  obtain ⟨⟨added, hlog⟩, -⟩ := step_frame h
  intro x hx
  rw [hlog]
  exact List.mem_append_right added hx

theorem run_log (events : List Event) (h : run (step c) s events = some s') : ∀ x ∈ s.log, x ∈ s'.log := by
  intro x hx
  exact run_keeps (fun _ _ _ hmem hstep => step_log hstep x hmem) events s s' hx h

/-- A `put` does not become a `get`. -/
theorem accept_of_put {index : Num} {input : Option Bytes} {i size offset length : Nat} :
    c.accept (.put index input) ≠ .ok (.get i size offset length) := by
  intro h
  unfold Config.accept at h
  dsimp only at h
  split at h
  · cases h
  · split at h
    · cases h
    · split at h
      · cases h
      · cases h

/-- **A step of a `put`** touches nothing, unless it is the one that commits. -/
theorem put_step (h : Inv c rows s) (hstep : step c s e = some s') {id : Nat} (hactor : s.actor e = some id)
    (hput : ∀ i size offset length, ¬Accepted c s.log id (.get i size offset length)) :
    Untouched s s' ∨ ∃ i data, .committed id i data ∈ s'.log := by
  rcases (step_frame hstep).2 id hactor with huntouched | htouches
  · exact Or.inl huntouched
  · cases htouches with
    | starts call hmem i size offset length hget =>
      have hcall := h.starting (id, call) hmem
      exact absurd ⟨call, hcall, hget⟩ (hput i size offset length)
    | reads tx hmem hid i size offset length hget =>
      have hacc := h.txs tx hmem
      rw [hid, hget] at hacc
      exact absurd hacc (hput i size offset length)
    | commits i data hmem => exact Or.inr ⟨i, data, hmem⟩

/-- What a `put` that fails was committed as: nothing. -/
theorem Inv.failed (h : Inv c rows s) {id : Nat} {code : String} (hdone : .done id (.error code) ∈ s.log)
    (i : Nat) (data : Bytes) : .committed id i data ∉ s.log := by
  intro hmem
  obtain ⟨-, -, houtcome⟩ := h.done id (.error code) hdone
  cases (houtcome i data (h.committed id i data hmem).1).mpr hmem

end Failed

/-! ## §5. Runs. -/

/-- **Whatever the constructor accepts**, there are never more than 8 MiB of pieces in RAM. -/
theorem memory_limit {hash : String} {chunkLength length : Num} {ramBytes : Option Num} {c : Config}
    (hc : construct hash chunkLength length ramBytes = .ok c) {rows : Nat → Option Row} {events : List Event}
    {s : State} (hrun : run (step c) (State.start rows) events = some s) :
    total s.cache ≤ 8 * 1024 * 1024 := by
  have h : Inv c rows s :=
    run_keeps (fun s e s' => inv_step c rows s e s') events _ _ (inv_start c rows) hrun
  have hbudget : (c.budget : ℤ) ≤ 8 * 1024 * 1024 := by exact_mod_cast (construct_ok hc).2
  calc total s.cache = s.memoryBytes := h.memory.symm
    _ ≤ c.budget := h.bounded
    _ ≤ 8 * 1024 * 1024 := hbudget

/-- **The store**, in every state of every run.  Its counter is exact and within the budget; it has no
    piece in RAM but what was committed last, or was stored from the beginning; a `get` returns what
    the last `put` before it has stored; and no step of a `put` that has failed has touched anything. -/
theorem store_coherent (c : Config) (rows : Nat → Option Row) (events : List Event) (s : State)
    (hrun : run (step c) (State.start rows) events = some s) :
    s.memoryBytes = total s.cache ∧ s.memoryBytes ≤ c.budget ∧ (s.cache.map Prod.fst).Nodup ∧
    (∀ p ∈ s.cache,
      match lastCommitted s.log p.1 with
      | some data => p.2 = data
      | none => ∃ row, rows p.1 = some row ∧ row.data = some p.2) ∧
    (∀ later earlier id result, s.log = later ++ .done id result :: earlier →
      Answered c earlier id result) ∧
    ∀ before e after s₁ s₂ id index input code, events = before ++ e :: after →
      run (step c) (State.start rows) before = some s₁ → step c s₁ e = some s₂ →
      s₁.actor e = some id → .call id (.put index input) ∈ s.log → .done id (.error code) ∈ s.log →
      Untouched s₁ s₂ := by
  have hinv : ∀ past s, run (step c) (State.start rows) past = some s → Inv c rows s := fun past s =>
    run_keeps (fun s e s' => inv_step c rows s e s') past _ _ (inv_start c rows)
  have h := hinv events s hrun
  refine ⟨h.memory, h.bounded, h.keys, fun p hp => ?_, h.answered, ?_⟩
  · obtain ⟨row, hrow, hdata⟩ := h.cached p hp
    rw [h.stored] at hrow
    split
    next data hlast =>
      rw [hlast] at hrow
      rw [← Option.some.inj hrow] at hdata
      exact (Option.some.inj hdata).symm
    next hlast =>
      rw [hlast] at hrow
      exact ⟨row, hrow, hdata⟩
  · rintro before e after s₁ s₂ id index input code rfl hbefore hstep hactor hcall hdone
    obtain ⟨middle, hmiddle, hrest⟩ := run_append hrun
    obtain rfl : s₁ = middle := Option.some.inj (hbefore.symm.trans hmiddle)
    obtain ⟨s₂', hstep', hafter⟩ := run_cons hrest
    obtain rfl : s₂ = s₂' := Option.some.inj (hstep.symm.trans hstep')
    have hput : ∀ i size offset length, ¬Accepted c s₁.log id (.get i size offset length) := by
      rintro i size offset length ⟨call, hmem, hget⟩
      rw [call_unique h.nodup (run_log after hafter _ (step_log hstep _ hmem)) hcall] at hget
      exact accept_of_put hget
    rcases put_step (hinv before s₁ hbefore) hstep hactor hput with huntouched | ⟨i, data, hmem⟩
    · exact huntouched
    · exact absurd (run_log after hafter _ hmem) (h.failed hdone i data)

def demoConfig : Config := { length := 3, budget := 3 }

/-- The row of an earlier session. -/
def demoRows (index : Nat) : Option Row := if index = 0 then some (demoConfig.row [9, 9, 9]) else none

/-- The old row is read while a new one waits to be stored; then a put fails, and two bytes are read. -/
def demoEvents : List Event :=
  [.call (.get (some 0) none none), .call (.put (some 0) (some [1, 2, 3])), .start, .ready (.ok ()), .start,
    .resume none, .resume none, .run 0, .complete, .run 0, .complete, .callback 1, .callback 0,
    .call (.put (some 0) (some [7, 7, 7])), .start, .resume none, .run 0, .abort 0 .quota, .callback 0,
    .call (.get (some 0) (some (some 1)) none), .start, .callback 0]

theorem demo_store_coherent :
    construct (String.ofList (List.replicate 40 'a')) (some 262144) (some 3) (some (some 3)) = .ok demoConfig ∧
      ∃ s, run (step demoConfig) (State.start demoRows) demoEvents = some s ∧
        s.log.head? = some (.done 3 (.ok (some [2, 3]))) ∧ s.cache = [(0, [1, 2, 3])] ∧
        .done 0 (.ok (some [9, 9, 9])) ∈ s.log ∧ .done 2 (.error "STORAGE_FULL") ∈ s.log ∧
        s.memoryBytes = total s.cache :=
  ⟨by decide +kernel, _, run_getD (by decide +kernel), by decide +kernel, by decide +kernel, by decide +kernel,
    by decide +kernel, (store_coherent demoConfig demoRows demoEvents _ (run_getD (by decide +kernel))).1⟩

end My98.Web.PieceStore
