/-
  My98.Web.StateInput — a published state, read ahead of its reader
  (`RemotePublication.stateInput` of `src/disk/web/torrent-remote.js`).

  The state is read in ranges of 256 KiB.  `fill` reserves ranges, in file order, while fewer than
  four are active and fewer than sixteen are reserved; it runs whenever a range finishes and
  whenever one is consumed.  The stream takes the ranges from the head of the queue.  `stop`, by a
  failing range, by the signal or by the consumer, empties the queue under a `pull` that is
  suspended on its head.

  Each range is a chain of promises, `then`, `then`, `catch`, `finally`, and other code may run
  between any two links, so each link is an event of its own.  What the network answers, when the
  consumer pulls or cancels and when the signal aborts is up to the run.

    • `Inv`        — how the queue, the counters and the file fit together, and `inv_step`;
    • `Stopped`    — what is never undone, and `stopped_step`;
    • `read_ahead` — every run.
-/
import Mathlib.Algebra.Order.Ring.Nat
import Mathlib.Tactic.Common
import My98.Lib.Bytes
import My98.Lib.Machine

namespace My98.Web.StateInput

open My98.Lib

/-! ## §1. The code. -/

/-- The size of a range, 256 KiB. -/
@[irreducible] def rangeBytes : Nat := 262144

structure Range where
  start : Nat
  count : Nat
  deriving DecidableEq, Repr

/-- How the promise of `remote.bytes` settles. -/
inductive Outcome where
  | bytes (data : Bytes)
  /-- With something that is no `Uint8Array`. -/
  | other
  | failed (reason : String)
  deriving DecidableEq

/-- How far the chain of promises of a range has come. -/
inductive Phase where
  /-- `remote.bytes` is not called yet. -/
  | reserved
  | requested
  | settled (outcome : Outcome)
  /-- The check has run. -/
  | checked (result : Except String Bytes)
  /-- `catch` has run. -/
  | caught (result : Except String Bytes)
  /-- `finally` has run. -/
  | done (result : Except String Bytes)
  deriving DecidableEq

structure Read where
  range : Range
  phase : Phase
  deriving DecidableEq

inductive Stream where
  | readable
  | closed
  | errored (reason : String)
  | cancelled
  deriving DecidableEq

/-- The variables of `stateInput`, with the promises in `pending` as indices of reads, and what can
be seen from outside: the requests that were sent, and the chunks that were enqueued. -/
structure State where
  size : Nat
  reads : List Read
  pending : List Nat
  offset : Nat
  next : Nat
  active : Nat
  /-- `stopped`, and the reason of `controller.signal`. -/
  stopped : Option String
  /-- `abort` listens to the signal. -/
  listening : Bool
  /-- The `pull` that is suspended, on `pending[0]`. -/
  pull : Option (Option Nat)
  stream : Stream
  requests : List Range
  chunks : List Bytes
  deriving DecidableEq

def State.stop (s : State) (reason : String) : State :=
  if s.stopped.isSome then s
  else { s with stopped := some reason, pending := [], listening := false }

/-- The condition of the loop of `fill`. -/
def State.room (s : State) : Prop :=
  s.stopped = none ∧ s.active < 4 ∧ s.pending.length < 16 ∧ s.next < s.size

instance (s : State) : Decidable s.room := inferInstanceAs (Decidable (_ ∧ _))

/-- Its body. -/
def State.reserve (s : State) : State :=
  let count := min rangeBytes (s.size - s.next)
  { s with
    next := s.next + count
    active := s.active + 1
    reads := s.reads ++ [{ range := { start := s.next, count }, phase := .reserved }]
    pending := s.pending ++ [s.reads.length] }

def State.fillFor : Nat → State → State
  | 0, s => s
  | turns + 1, s => if s.room then State.fillFor turns s.reserve else s

/-- Every turn of the loop makes one more range active, so there are no more than four turns. -/
def State.fill (s : State) : State := s.fillFor 4

def State.phase? (s : State) (i : Nat) : Option Phase := s.reads[i]?.map (·.phase)

def State.setRead (s : State) (i : Nat) (range : Range) (phase : Phase) : State :=
  { s with reads := s.reads.set i { range, phase } }

/-- The check of the bytes. -/
def check (range : Range) : Outcome → Except String Bytes
  | .bytes data => if data.length = range.count then .ok data else .error "TRANSPORT_ERROR"
  | .other => .error "TRANSPORT_ERROR"
  | .failed reason => .error reason

/-- `output.error(error)`, which does nothing to a stream that is not readable. -/
def State.error (s : State) (reason : String) : State :=
  match s.stream with
  | .readable => { s with stream := .errored reason }
  | _ => s

/-- The `catch` of `pull`. -/
def State.failPull (s : State) (reason : String) : State :=
  ({ s with pull := none }.stop reason).error reason

/-- `finish(); output.close()`. -/
def State.close (s : State) : State := { s with listening := false, stream := .closed }

/-- `fill();await pending[0]`. -/
def State.await (s : State) : State := { s.fill with pull := some s.fill.pending.head? }

/-- `pending.shift()` and `output.enqueue(result.bytes)`, with `fill` after them. -/
def State.deliver (s : State) (data : Bytes) : State :=
  let shifted := { s with pull := none, pending := s.pending.tail, offset := s.offset + data.length }
  if s.stream = .readable then { shifted with chunks := s.chunks ++ [data] }.fill
  else shifted.failPull "TypeError"

/-- `pull`, up to its `await`. -/
def State.startPull (s : State) : State :=
  match s.stopped with
  | some reason => s.failPull reason
  | none =>
    if s.offset = s.size then s.close else s.await

/-- `pull`, after its `await`; of an empty queue it has awaited `undefined`. -/
def State.resumePull (s : State) (result : Option (Except String Bytes)) : State :=
  match s.stopped with
  | some reason => s.failPull reason
  | none =>
    match result with
    | none => s.failPull "TypeError"
    | some (.error reason) => s.failPull reason
    | some (.ok data) => s.deliver data

inductive Event where
  /-- `remote.bytes` is called: it throws, or `io.call` rejects for an aborted signal, or the
  request is sent. -/
  | launch (i : Nat) (refused : Option String)
  | answer (i : Nat) (outcome : Outcome)
  | check (i : Nat)
  /-- The `catch` of the range. -/
  | caught (i : Nat)
  /-- Its `finally`. -/
  | finished (i : Nat)
  /-- The stream pulls, which it does not while a `pull` is suspended. -/
  | pull
  | resume
  | abort (reason : String)
  | cancel (reason : String)

def State.launch (s : State) (i : Nat) (range : Range) (refused : Option String) : State :=
  match refused, s.stopped with
  | some reason, _ => s.setRead i range (.settled (.failed reason))
  | none, some reason => s.setRead i range (.settled (.failed reason))
  | none, none => { s.setRead i range .requested with requests := s.requests ++ [range] }

def State.onCatch (s : State) (i : Nat) (range : Range) : Except String Bytes → State
  | .ok data => s.setRead i range (.caught (.ok data))
  | .error reason => (s.stop reason).setRead i range (.caught (.error reason))

def State.onFinally (s : State) (i : Nat) (range : Range) (result : Except String Bytes) : State :=
  ({ s.setRead i range (.done result) with active := s.active - 1 }).fill

def step (s : State) : Event → Option State
  | .launch i refused =>
    match s.reads[i]? with
    | some { range, phase := .reserved } => some (s.launch i range refused)
    | _ => none
  | .answer i outcome =>
    match s.reads[i]? with
    | some { range, phase := .requested } => some (s.setRead i range (.settled outcome))
    | _ => none
  | .check i =>
    match s.reads[i]? with
    | some { range, phase := .settled outcome } =>
      some (s.setRead i range (.checked (StateInput.check range outcome)))
    | _ => none
  | .caught i =>
    match s.reads[i]? with
    | some { range, phase := .checked result } => some (s.onCatch i range result)
    | _ => none
  | .finished i =>
    match s.reads[i]? with
    | some { range, phase := .caught result } => some (s.onFinally i range result)
    | _ => none
  | .pull => if s.stream = .readable ∧ s.pull = none then some s.startPull else none
  | .resume =>
    match s.pull with
    | none => none
    | some none => some (s.resumePull none)
    | some (some i) =>
      match s.phase? i with
      | some (.done result) => some (s.resumePull (some result))
      | _ => none
  | .abort reason => some (if s.listening then s.stop reason else s)
  | .cancel reason =>
    if s.stream = .readable then some ({ s with stream := .cancelled }.stop reason) else none

/-- The state when the stream is returned. -/
def State.start (size : Nat) : State :=
  { size, reads := [], pending := [], offset := 0, next := 0, active := 0, stopped := none,
    listening := true, pull := none, stream := .readable, requests := [], chunks := [] }

/-- `if(signal?.aborted)throw signal.reason`. -/
def stateInput (size : Nat) (aborted : Option String) : Except String State :=
  match aborted with
  | some reason => .error reason
  | none => .ok (State.start size)

/-! ## §2. The ranges of the file. -/

/-- The ranges of a file, in order. -/
def rangeAt (size k : Nat) : Range :=
  { start := k * rangeBytes, count := min rangeBytes (size - k * rangeBytes) }

/-- A range is not empty. -/
theorem rangeBytes_pos : 0 < rangeBytes := by
  unfold rangeBytes
  decide

/-- No range is requested under two indices. -/
theorem rangeAt_injective {size j k : Nat} (h : rangeAt size j = rangeAt size k) : j = k := by
  have hstart : j * rangeBytes = k * rangeBytes := congrArg Range.start h
  exact Nat.eq_of_mul_eq_mul_right rangeBytes_pos hstart

/-- The range is not done. -/
def Read.busy (r : Read) : Bool :=
  match r.phase with
  | .done _ => false
  | _ => true

/-- A read that is done is not busy. -/
theorem Read.busy_done {r : Read} {result : Except String Bytes} (h : r.phase = .done result) :
    r.busy = false := by
  unfold Read.busy
  rw [h]

/-- The `catch` of the range has found an error. -/
def Read.failed (r : Read) : Bool :=
  match r.phase with
  | .caught (.error _) => true
  | .done (.error _) => true
  | _ => false

/-- What has passed the check has the length of the range. -/
def Read.Checked (r : Read) : Prop :=
  match r.phase with
  | .checked (.ok data) => data.length = r.range.count
  | .caught (.ok data) => data.length = r.range.count
  | .done (.ok data) => data.length = r.range.count
  | _ => True

/-! ## §3. The invariant. -/

/-- How the queue, the counters and the file fit together. -/
structure Inv (s : State) : Prop where
  reads : ∀ (k : Nat) (r : Read), s.reads[k]? = some r → r.range = rangeAt s.size k ∧ k * rangeBytes < s.size
  next : s.next = min (s.reads.length * rangeBytes) s.size
  active : s.active = s.reads.countP Read.busy
  few : s.active ≤ 4
  checked : ∀ r ∈ s.reads, r.Checked
  failed : ∀ r ∈ s.reads, r.failed = true → s.stopped ≠ none
  requests : s.requests.Nodup ∧
    ∀ q ∈ s.requests, ∃ (k : Nat) (r : Read), s.reads[k]? = some r ∧ q = r.range ∧ r.phase ≠ .reserved
  consumed : s.chunks.length ≤ s.reads.length
  unread : s.reads.length ≤ s.chunks.length + 16
  chunks : ∀ (k : Nat) (b : Bytes), s.chunks[k]? = some b → s.phase? k = some (.done (.ok b))
  offset : s.offset = min (s.chunks.length * rangeBytes) s.size
  total : (s.chunks.map List.length).sum = s.offset
  pending : s.stopped = none →
    s.pending = List.range' s.chunks.length (s.reads.length - s.chunks.length)
  pull : s.stopped = none → ∀ head, s.pull = some head →
    s.stream = .readable ∧ head = some s.chunks.length
  head : ∀ i, s.pull = some (some i) → i < s.reads.length
  stream : s.stopped = none → s.stream = .readable ∧ s.listening = true ∨ s.stream = .closed
  closed : s.stream = .closed → s.stopped = none ∧ s.listening = false ∧
    s.size ≤ s.chunks.length * rangeBytes

/-- One more range of at most `b` after the first `a`. -/
theorem add_range {a size : Nat} (h : a ≤ size) (b : Nat) :
    a + min b (size - a) = min (a + b) size := by omega

/-- The next range starts where the last one ends. -/
theorem min_add_range (a b size : Nat) : min a size + min b (size - a) = min (a + b) size := by
  rcases Nat.le_total a size with h | h
  · rw [Nat.min_eq_left h]
    exact add_range h b
  · rw [Nat.min_eq_right h, Nat.sub_eq_zero_of_le h, Nat.min_zero, Nat.min_eq_right (by omega)]
    rfl

/-- Before the first range nothing is requested. -/
theorem zero_ranges (size : Nat) : min (0 * rangeBytes) size = 0 := by
  rw [Nat.zero_mul, Nat.zero_min]

/-- The stream at its start. -/
theorem inv_start (size : Nat) : Inv (State.start size) := by
  refine ⟨fun k r h => ?_, ?_, rfl, Nat.zero_le _, fun r hr => ?_, fun r hr => ?_,
    ⟨List.nodup_nil, fun q hq => ?_⟩, Nat.le_refl _, Nat.zero_le _, fun k b h => ?_, ?_, rfl,
    fun _ => rfl, fun _ head h => ?_, fun i h => ?_, fun _ => .inl ⟨rfl, rfl⟩, fun h => ?_⟩
  · cases h
  · exact (zero_ranges size).symm
  · cases hr
  · cases hr
  · cases hq
  · cases h
  · exact (zero_ranges size).symm
  · cases h
  · cases h
  · cases h

section Steps

variable {s s' : State}

/-- A closed stream has read everything, so no range is left to move. -/
theorem Inv.idle (h : Inv s) (hclosed : s.stream = .closed) {i : Nat} {r : Read}
    (hi : s.reads[i]? = some r) : r.busy = false := by
  obtain ⟨-, -, hsize⟩ := h.closed hclosed
  obtain ⟨-, hin⟩ := h.reads i r hi
  have hlt : i < s.chunks.length := Nat.lt_of_mul_lt_mul_right (hin.trans_le hsize)
  have hphase := h.chunks i _ (List.getElem?_eq_getElem hlt)
  rw [State.phase?, hi] at hphase
  exact Read.busy_done (Option.some.inj hphase)

/-- **A range moves on.** -/
theorem Inv.setRead (h : Inv s) {i active : Nat} {range : Range} {p q : Phase}
    (hi : s.reads[i]? = some ⟨range, p⟩) (hp : (Read.mk range p).busy = true)
    (hactive : active + 1 = s.active + if (Read.mk range q).busy then 1 else 0)
    (hnew : q ≠ .reserved) (hchecked : (Read.mk range q).Checked)
    (hfailed : (Read.mk range q).failed = true → s.stopped ≠ none) :
    Inv { s.setRead i range q with active } := by
  have hlt : i < s.reads.length := (List.getElem?_eq_some_iff.mp hi).1
  have hat : s.reads[i] = ⟨range, p⟩ := (List.getElem?_eq_some_iff.mp hi).2
  have hget : ∀ k, (s.reads.set i ⟨range, q⟩)[k]? =
      if k = i then some ⟨range, q⟩ else s.reads[k]? := by
    intro k
    by_cases hk : k = i
    · rw [if_pos hk, hk, List.getElem?_set_self hlt]
    · rw [if_neg hk, List.getElem?_set_ne (Ne.symm hk)]
  have hmem : ∀ r ∈ s.reads.set i ⟨range, q⟩, r = ⟨range, q⟩ ∨ r ∈ s.reads := by
    intro r hr
    exact (List.mem_or_eq_of_mem_set hr).symm
  have hlength : (s.reads.set i ⟨range, q⟩).length = s.reads.length := List.length_set
  refine ⟨fun k r hk => ?_, ?_, ?_, ?_, fun r hr => ?_, fun r hr => ?_, ⟨h.requests.1, fun t ht => ?_⟩,
    ?_, ?_, fun k b hb => ?_, h.offset, h.total, fun hs => ?_, h.pull, fun j hj => ?_, h.stream,
    h.closed⟩
  · have hk' : (s.reads.set i ⟨range, q⟩)[k]? = some r := hk
    rw [hget] at hk'
    split at hk'
    next heq =>
      obtain rfl := Option.some.inj hk'
      exact heq ▸ h.reads i _ hi
    · exact h.reads k r hk'
  · show s.next = min ((s.reads.set i ⟨range, q⟩).length * rangeBytes) s.size
    rw [hlength]
    exact h.next
  · show active = (s.reads.set i ⟨range, q⟩).countP Read.busy
    -- The read was busy, so the count can go down by it.
    have hpos : 0 < s.reads.countP Read.busy :=
      List.countP_pos_iff.mpr ⟨_, List.mem_of_getElem? hi, hp⟩
    have hcount := h.active
    rw [List.countP_set hlt, hat, if_pos hp]
    omega
  · have hfew := h.few
    show active ≤ 4
    split at hactive <;> omega
  · rcases hmem r hr with rfl | hr
    · exact hchecked
    · exact h.checked r hr
  · rcases hmem r hr with rfl | hr
    · exact hfailed
    · exact h.failed r hr
  · obtain ⟨k, r, hk, hrange, hphase⟩ := h.requests.2 t ht
    by_cases heq : k = i
    · subst heq
      rw [hi] at hk
      obtain rfl := Option.some.inj hk
      exact ⟨k, ⟨range, q⟩, (hget k).trans (if_pos rfl), hrange, hnew⟩
    · exact ⟨k, r, (hget k).trans ((if_neg heq).trans hk), hrange, hphase⟩
  · show s.chunks.length ≤ (s.reads.set i ⟨range, q⟩).length
    rw [hlength]
    exact h.consumed
  · show (s.reads.set i ⟨range, q⟩).length ≤ s.chunks.length + 16
    rw [hlength]
    exact h.unread
  · have hdone := h.chunks k b hb
    -- The reads that were enqueued are done, so this one is not among them.
    have hne : k ≠ i := by
      rintro rfl
      rw [State.phase?, hi] at hdone
      have hidle : (Read.mk range p).busy = false := Read.busy_done (Option.some.inj hdone)
      rw [hidle] at hp
      cases hp
    show ((s.reads.set i ⟨range, q⟩)[k]?).map Read.phase = _
    rw [hget, if_neg hne]
    exact hdone
  · show s.pending = List.range' s.chunks.length ((s.reads.set i ⟨range, q⟩).length - s.chunks.length)
    rw [hlength]
    exact h.pending hs
  · show j < (s.reads.set i ⟨range, q⟩).length
    rw [hlength]
    exact h.head j hj

/-- The ranges move on while they are active. -/
theorem Inv.move (h : Inv s) {i : Nat} {range : Range} {p q : Phase}
    (hi : s.reads[i]? = some ⟨range, p⟩) (hp : (Read.mk range p).busy = true)
    (hq : (Read.mk range q).busy = true) (hnew : q ≠ .reserved) (hchecked : (Read.mk range q).Checked)
    (hfailed : (Read.mk range q).failed = true → s.stopped ≠ none) : Inv (s.setRead i range q) := by
  have hactive : s.active + 1 = s.active + if (Read.mk range q).busy then 1 else 0 := by rw [if_pos hq]
  exact h.setRead hi hp hactive hnew hchecked hfailed

/-- A request that was not sent before. -/
theorem Inv.request (h : Inv s) {q : Range} (hnew : q ∉ s.requests)
    (hread : ∃ (k : Nat) (r : Read), s.reads[k]? = some r ∧ q = r.range ∧ r.phase ≠ .reserved) :
    Inv { s with requests := s.requests ++ [q] } := by
  refine { h with requests := ⟨?_, fun t ht => ?_⟩ }
  · rw [List.nodup_append]
    refine ⟨h.requests.1, by simp, fun t ht u hu heq => hnew ?_⟩
    rwa [← List.mem_singleton.mp hu, ← heq]
  · rcases List.mem_append.mp ht with ht | ht
    · exact h.requests.2 t ht
    · rw [List.mem_singleton.mp ht]
      exact hread

/-- **Stopping empties the queue.** -/
theorem Inv.stop (h : Inv s) (hopen : s.stream ≠ .closed) (reason : String) :
    Inv (s.stop reason) ∧ (s.stop reason).stopped ≠ none := by
  unfold State.stop
  by_cases hstopped : s.stopped.isSome
  · rw [if_pos hstopped]
    exact ⟨h, Option.isSome_iff_ne_none.mp hstopped⟩
  · rw [if_neg hstopped]
    have hne : ∀ {P : Prop}, some reason = none → P := fun heq => by cases heq
    exact ⟨⟨h.reads, h.next, h.active, h.few, h.checked, fun _ _ _ => Option.some_ne_none _, h.requests,
      h.consumed, h.unread, h.chunks, h.offset, h.total, hne, hne, h.head, hne, fun heq => absurd heq hopen⟩,
      Option.some_ne_none _⟩

/-- The stream may be errored once it has stopped. -/
theorem Inv.error (h : Inv s) (hstopped : s.stopped ≠ none) (reason : String) :
    Inv (s.error reason) := by
  unfold State.error
  split
  · refine { h with pull := fun hs => absurd hs hstopped, stream := fun hs => absurd hs hstopped, closed := ?_ }
    intro heq
    cases heq
  · exact h

/-- The `catch` of `pull`. -/
theorem Inv.failPull (h : Inv s) (hopen : s.stream ≠ .closed) (reason : String) :
    Inv (s.failPull reason) := by
  have hpull : Inv { s with pull := none } :=
    { h with pull := fun _ head hp => (by cases hp), head := fun i hp => (by cases hp) }
  obtain ⟨hstop, hstopped⟩ := hpull.stop hopen reason
  exact hstop.error hstopped reason

/-! ## §4. Filling. -/

/-- What `fill` leaves alone. -/
structure Same (s s' : State) : Prop where
  size : s'.size = s.size
  offset : s'.offset = s.offset
  stopped : s'.stopped = s.stopped
  listening : s'.listening = s.listening
  pull : s'.pull = s.pull
  stream : s'.stream = s.stream
  requests : s'.requests = s.requests
  chunks : s'.chunks = s.chunks

/-- The loop only adds reads. -/
theorem fillFor_same (turns : Nat) : ∀ s : State, Same s (s.fillFor turns) := by
  induction turns with
  | zero => exact fun s => ⟨rfl, rfl, rfl, rfl, rfl, rfl, rfl, rfl⟩
  | succ turns ih =>
    intro s
    unfold State.fillFor
    split
    · have hrest := ih s.reserve
      exact ⟨hrest.size, hrest.offset, hrest.stopped, hrest.listening, hrest.pull, hrest.stream,
        hrest.requests, hrest.chunks⟩
    · exact ⟨rfl, rfl, rfl, rfl, rfl, rfl, rfl, rfl⟩

/-- So does `fill`. -/
theorem fill_same (s : State) : Same s s.fill := fillFor_same 4 s

/-- A loop of four turns ends because its condition fails. -/
theorem fillFor_full {turns : Nat} : ∀ {s : State}, 4 ≤ s.active + turns → ¬(s.fillFor turns).room := by
  induction turns with
  | zero =>
    rintro s hactive ⟨-, hlt, -⟩
    have hlt' : s.active < 4 := hlt
    omega
  | succ turns ih =>
    intro s hactive
    unfold State.fillFor
    split
    · refine ih ?_
      show 4 ≤ (s.active + 1) + turns
      omega
    next hroom => exact hroom

/-- Once it has stopped, it requests nothing. -/
theorem fill_stopped (h : s.stopped ≠ none) : s.fill = s := by
  unfold State.fill State.fillFor
  rw [if_neg fun hroom => h hroom.1]

/-- **One turn of the loop.** -/
theorem Inv.reserve (h : Inv s) (hroom : s.room) : Inv s.reserve := by
  obtain ⟨hgoing, hactive, hpending, hnext⟩ := hroom
  have hlist := h.pending hgoing
  have hconsumed := h.consumed
  have hat : s.next = s.reads.length * rangeBytes := by
    have := h.next
    omega
  have hlen : s.pending.length = s.reads.length - s.chunks.length := by
    rw [hlist, List.length_range']
  -- The range that is reserved is the next one of the file.
  have hnew : { start := s.next, count := min rangeBytes (s.size - s.next) } =
      rangeAt s.size s.reads.length := by
    rw [rangeAt, hat]
  -- It is pending behind the others.
  have hsplit : s.reads.length + 1 - s.chunks.length = (s.reads.length - s.chunks.length) + 1 := by
    omega
  refine ⟨fun k r hk => ?_, ?_, ?_, ?_, fun r hr => ?_, fun r hr => ?_, ⟨h.requests.1, fun t ht => ?_⟩,
    ?_, ?_, fun k b hb => ?_, h.offset, h.total, fun _ => ?_, h.pull, fun j hj => ?_, h.stream,
    h.closed⟩
  · have hk' : (s.reads ++ [_])[k]? = some r := hk
    by_cases hlt : k < s.reads.length
    · rw [List.getElem?_append_left hlt] at hk'
      exact h.reads k r hk'
    · rw [List.getElem?_append_right (by omega)] at hk'
      obtain ⟨hzero, rfl⟩ := List.getElem?_eq_some_iff.mp hk'
      rw [List.length_singleton] at hzero
      have heq : k = s.reads.length := by omega
      subst heq
      refine ⟨?_, ?_⟩
      · rw [List.getElem_singleton]
        exact hnew
      · show s.reads.length * rangeBytes < s.size
        omega
  · show s.next + min rangeBytes (s.size - s.next) = min ((s.reads ++ [_]).length * rangeBytes) s.size
    rw [List.length_append, List.length_singleton, Nat.add_mul, Nat.one_mul, hat]
    exact add_range (by omega) _
  · show s.active + 1 = (s.reads ++ [_]).countP Read.busy
    rw [List.countP_append, ← h.active]
    rfl
  · exact hactive
  · rcases List.mem_append.mp hr with hr | hr
    · exact h.checked r hr
    · rw [List.mem_singleton.mp hr]
      trivial
  · rcases List.mem_append.mp hr with hr | hr
    · exact h.failed r hr
    · rw [List.mem_singleton.mp hr]
      intro hfailed
      cases hfailed
  · obtain ⟨k, r, hk, hrest⟩ := h.requests.2 t ht
    refine ⟨k, r, ?_, hrest⟩
    show (s.reads ++ [_])[k]? = some r
    rw [List.getElem?_append_left (List.getElem?_eq_some_iff.mp hk).1]
    exact hk
  · show s.chunks.length ≤ (s.reads ++ [_]).length
    rw [List.length_append]
    omega
  · show (s.reads ++ [_]).length ≤ s.chunks.length + 16
    rw [List.length_append, List.length_singleton]
    omega
  · have hdone := h.chunks k b hb
    have hlt : k < s.reads.length := by
      obtain ⟨hk, -⟩ := List.getElem?_eq_some_iff.mp hb
      exact Nat.lt_of_lt_of_le hk hconsumed
    show ((s.reads ++ [_])[k]?).map Read.phase = _
    rw [List.getElem?_append_left hlt]
    exact hdone
  · show s.pending ++ [s.reads.length] =
      List.range' s.chunks.length ((s.reads ++ [_]).length - s.chunks.length)
    rw [List.length_append, List.length_singleton, hsplit, List.range'_concat, hlist, Nat.one_mul,
      Nat.add_sub_cancel' hconsumed]
  · have hlt := h.head j hj
    show j < (s.reads ++ [_]).length
    rw [List.length_append]
    omega

/-- Every turn of the loop keeps the invariant. -/
theorem Inv.fillFor {turns : Nat} : ∀ {s : State}, Inv s → Inv (s.fillFor turns) := by
  induction turns with
  | zero => exact fun h => h
  | succ turns ih =>
    intro s h
    unfold State.fillFor
    split
    next hroom => exact ih (h.reserve hroom)
    · exact h

/-- So does `fill`. -/
theorem Inv.fill (h : Inv s) : Inv s.fill := h.fillFor

/-- **The queue is not empty** where there is more to read. -/
theorem Inv.fill_head (h : Inv s) (hgoing : s.stopped = none) (hmore : s.offset ≠ s.size) :
    s.fill.pending.head? = some s.chunks.length ∧ s.chunks.length < s.fill.reads.length := by
  have hfill := h.fill
  have hsame := fill_same s
  have hfull : ¬s.fill.room := fillFor_full (by omega)
  have hlist := hfill.pending (hsame.stopped.trans hgoing)
  rw [hsame.chunks] at hlist
  have hlt : s.chunks.length < s.fill.reads.length := by
    by_contra hge
    have hconsumed := hfill.consumed
    rw [hsame.chunks] at hconsumed
    have heq : s.fill.reads.length = s.chunks.length := by omega
    -- every range is done, so nothing is active, and there is room
    have hidle : s.fill.active = 0 := by
      rw [hfill.active, List.countP_eq_zero]
      intro r hr
      obtain ⟨k, hk⟩ := List.mem_iff_getElem?.mp hr
      have hkl : k < s.chunks.length := by
        rw [← heq]
        exact (List.getElem?_eq_some_iff.mp hk).1
      have hdone := hfill.chunks k (s.chunks[k]) (by rw [hsame.chunks, List.getElem?_eq_getElem hkl])
      rw [State.phase?, hk] at hdone
      rw [Read.busy_done (Option.some.inj hdone)]
      exact Bool.false_ne_true
    refine hfull ⟨hsame.stopped.trans hgoing, by omega, ?_, ?_⟩
    · rw [hlist, List.length_range']
      omega
    · have hnext := hfill.next
      have hoffset := h.offset
      rw [hsame.size] at hnext ⊢
      rw [heq] at hnext
      omega
  refine ⟨?_, hlt⟩
  rw [hlist]
  obtain ⟨n, hn⟩ : ∃ n, s.fill.reads.length - s.chunks.length = n + 1 := ⟨_, (Nat.succ_pred (by omega)).symm⟩
  rw [hn, List.range'_succ]
  rfl

/-! ## §5. The steps. -/

/-- A `pull` may start on a readable stream. -/
theorem Inv.startPull (h : Inv s) (hreadable : s.stream = .readable) (hidle : s.pull = none) :
    Inv s.startPull := by
  have hopen : s.stream ≠ .closed := by
    rw [hreadable]
    intro heq
    cases heq
  unfold State.startPull
  cases hstopped : s.stopped with
  | some reason => exact h.failPull hopen reason
  | none =>
    dsimp only
    split
    next hend =>
      have hsize : s.size ≤ s.chunks.length * rangeBytes := by
        have := h.offset
        omega
      unfold State.close
      exact { h with
        pull := fun _ head hp => absurd (hidle.symm.trans hp) (by intro heq; cases heq)
        head := fun i hp => absurd (hidle.symm.trans hp) (by intro heq; cases heq)
        stream := fun _ => .inr rfl
        closed := fun _ => ⟨hstopped, rfl, hsize⟩ }
    next hmore =>
      have hsame := fill_same s
      obtain ⟨hhead, hlt⟩ := h.fill_head hstopped hmore
      unfold State.await
      refine { h.fill with
        pull := fun _ head hp => ⟨hsame.stream.trans hreadable, ?_⟩
        head := fun i hp => ?_ }
      · rw [← Option.some.inj hp, hhead]
        exact congrArg some (congrArg List.length hsame.chunks.symm)
      · have heq := hhead.symm.trans (Option.some.inj hp)
        rwa [← Option.some.inj heq]

/-- **A chunk is enqueued**: it is the next one. -/
theorem Inv.deliver (h : Inv s) (hreadable : s.stream = .readable) {data : Bytes}
    (hgoing : s.stopped = none) (hdone : s.phase? s.chunks.length = some (.done (.ok data))) :
    Inv (s.deliver data) := by
  unfold State.deliver
  dsimp only
  rw [if_pos hreadable]
  apply Inv.fill
  obtain ⟨r, hr, hphase⟩ := Option.map_eq_some_iff.mp hdone
  have hlt : s.chunks.length < s.reads.length := (List.getElem?_eq_some_iff.mp hr).1
  obtain ⟨hrange, hin⟩ := h.reads _ r hr
  have hlen : data.length = min rangeBytes (s.size - s.chunks.length * rangeBytes) := by
    have hchecked := h.checked r (List.mem_of_getElem? hr)
    rw [Read.Checked, hphase, hrange] at hchecked
    exact hchecked
  have hoffset := h.offset
  refine ⟨h.reads, h.next, h.active, h.few, h.checked, h.failed, h.requests, ?_, ?_, fun k b hb => ?_,
    ?_, ?_, fun _ => ?_, fun _ head hp => ?_, fun i hp => ?_, h.stream, fun heq => ?_⟩
  · show (s.chunks ++ [data]).length ≤ s.reads.length
    rw [List.length_append]
    exact hlt
  · have hunread := h.unread
    show s.reads.length ≤ (s.chunks ++ [data]).length + 16
    rw [List.length_append]
    omega
  · have hb' : (s.chunks ++ [data])[k]? = some b := hb
    by_cases hk : k < s.chunks.length
    · rw [List.getElem?_append_left hk] at hb'
      exact h.chunks k b hb'
    · rw [List.getElem?_append_right (by omega)] at hb'
      obtain ⟨hzero, rfl⟩ := List.getElem?_eq_some_iff.mp hb'
      rw [List.length_singleton] at hzero
      obtain rfl : k = s.chunks.length := by omega
      rw [List.getElem_singleton]
      exact hdone
  · show s.offset + data.length = min ((s.chunks ++ [data]).length * rangeBytes) s.size
    rw [List.length_append, List.length_singleton, Nat.add_mul, Nat.one_mul, hlen, hoffset]
    exact min_add_range _ _ _
  · show ((s.chunks ++ [data]).map List.length).sum = s.offset + data.length
    rw [List.map_append, List.sum_append, h.total]
    rfl
  · show s.pending.tail =
      List.range' (s.chunks ++ [data]).length (s.reads.length - (s.chunks ++ [data]).length)
    obtain ⟨n, hn⟩ : ∃ n, s.reads.length - s.chunks.length = n + 1 := ⟨_, (Nat.succ_pred (by omega)).symm⟩
    rw [h.pending hgoing, hn, List.range'_succ, List.tail_cons, List.length_append,
      List.length_singleton]
    congr 1
    omega
  · cases hp
  · cases hp
  · rw [hreadable] at heq
    cases heq

/-- It goes on with the read that it waited for. -/
theorem Inv.resumePull (h : Inv s) {head : Option Nat} (hpull : s.pull = some head)
    {result : Option (Except String Bytes)}
    (hresult : result = none → head = none)
    (hdone : ∀ r, result = some r → ∃ i, head = some i ∧ s.phase? i = some (.done r)) :
    Inv (s.resumePull result) := by
  unfold State.resumePull
  cases hstopped : s.stopped with
  | some reason =>
    refine h.failPull (fun hclosed => ?_) reason
    have hnone := (h.closed hclosed).1
    rw [hstopped] at hnone
    cases hnone
  | none =>
    obtain ⟨hreadable, hhead⟩ := h.pull hstopped head hpull
    have hopen : s.stream ≠ .closed := by
      rw [hreadable]
      intro heq
      cases heq
    dsimp only
    cases result with
    | none => exact h.failPull hopen _
    | some result =>
      obtain ⟨i, hi, hphase⟩ := hdone result rfl
      cases result with
      | error reason => exact h.failPull hopen reason
      | ok data =>
        rw [Option.some.inj (hi.symm.trans hhead)] at hphase
        exact h.deliver hreadable hstopped hphase

/-- A reserved range is requested. -/
theorem Inv.launch (h : Inv s) {i : Nat} {range : Range} (hi : s.reads[i]? = some ⟨range, .reserved⟩)
    (refused : Option String) : Inv (s.launch i range refused) := by
  have hsettle : ∀ reason, Inv (s.setRead i range (.settled (.failed reason))) := fun reason =>
    h.move hi rfl rfl (by intro heq; cases heq) trivial (by intro heq; cases heq)
  unfold State.launch
  cases refused with
  | some reason => exact hsettle reason
  | none =>
    cases s.stopped with
    | some reason => exact hsettle reason
    | none =>
      have hmove : Inv (s.setRead i range .requested) :=
        h.move hi rfl rfl (by intro heq; cases heq) trivial (by intro heq; cases heq)
      refine hmove.request (fun hsent => ?_) ⟨i, ⟨range, .requested⟩, ?_, rfl, by intro heq; cases heq⟩
      · obtain ⟨k, r, hk, hrange, hphase⟩ := h.requests.2 range hsent
        have hsame : rangeAt s.size i = rangeAt s.size k :=
          ((h.reads i _ hi).1.symm.trans hrange).trans (h.reads k r hk).1
        rw [← rangeAt_injective hsame, hi] at hk
        rw [← Option.some.inj hk] at hphase
        exact hphase rfl
      · exact List.getElem?_set_self (List.getElem?_eq_some_iff.mp hi).1

/-- What is checked has the length of its range, or is an error. -/
theorem checked_check (range : Range) (outcome : Outcome) :
    (Read.mk range (.checked (check range outcome))).Checked := by
  cases outcome with
  | bytes data =>
    by_cases hlen : data.length = range.count
    · rw [check, if_pos hlen]
      exact hlen
    · rw [check, if_neg hlen]
      trivial
  | other => trivial
  | failed reason => trivial

/-- What a step can do. -/
inductive Moves (s : State) : Event → State → Prop
  | launch {i : Nat} {range : Range} (refused : Option String)
      (hi : s.reads[i]? = some ⟨range, .reserved⟩) : Moves s (.launch i refused) (s.launch i range refused)
  | answer {i : Nat} {range : Range} (outcome : Outcome)
      (hi : s.reads[i]? = some ⟨range, .requested⟩) :
      Moves s (.answer i outcome) (s.setRead i range (.settled outcome))
  | check {i : Nat} {range : Range} {outcome : Outcome}
      (hi : s.reads[i]? = some ⟨range, .settled outcome⟩) :
      Moves s (.check i) (s.setRead i range (.checked (StateInput.check range outcome)))
  | caught {i : Nat} {range : Range} {result : Except String Bytes}
      (hi : s.reads[i]? = some ⟨range, .checked result⟩) : Moves s (.caught i) (s.onCatch i range result)
  | finished {i : Nat} {range : Range} {result : Except String Bytes}
      (hi : s.reads[i]? = some ⟨range, .caught result⟩) :
      Moves s (.finished i) (s.onFinally i range result)
  | pull (hstream : s.stream = .readable) (hpull : s.pull = none) : Moves s .pull s.startPull
  | resumeEmpty (hpull : s.pull = some none) : Moves s .resume (s.resumePull none)
  | resume {i : Nat} {result : Except String Bytes} (hpull : s.pull = some (some i))
      (hphase : s.phase? i = some (.done result)) : Moves s .resume (s.resumePull (some result))
  | abort (reason : String) (hlistening : s.listening = true) : Moves s (.abort reason) (s.stop reason)
  | aborted (reason : String) (hlistening : s.listening = false) : Moves s (.abort reason) s
  | cancel (reason : String) (hstream : s.stream = .readable) :
      Moves s (.cancel reason) ({ s with stream := .cancelled }.stop reason)

/-- **What one event does**, with its guards. -/
theorem step_moves {e : Event} (h : step s e = some s') : Moves s e s' := by
  cases e with
  | launch i refused =>
    simp only [step] at h
    split at h
    next range hi => exact Option.some.inj h ▸ .launch refused hi
    · cases h
  | answer i outcome =>
    simp only [step] at h
    split at h
    next range hi => exact Option.some.inj h ▸ .answer outcome hi
    · cases h
  | check i =>
    simp only [step] at h
    split at h
    next range outcome hi => exact Option.some.inj h ▸ .check hi
    · cases h
  | caught i =>
    simp only [step] at h
    split at h
    next range result hi => exact Option.some.inj h ▸ .caught hi
    · cases h
  | finished i =>
    simp only [step] at h
    split at h
    next range result hi => exact Option.some.inj h ▸ .finished hi
    · cases h
  | pull =>
    simp only [step] at h
    split at h
    next hidle => exact Option.some.inj h ▸ .pull hidle.1 hidle.2
    · cases h
  | resume =>
    simp only [step] at h
    split at h
    · cases h
    next hpull => exact Option.some.inj h ▸ .resumeEmpty hpull
    next i hpull =>
      split at h
      next result hphase => exact Option.some.inj h ▸ .resume hpull hphase
      · cases h
  | abort reason =>
    simp only [step] at h
    cases hlistening : s.listening with
    | true =>
      rw [hlistening, if_pos rfl] at h
      exact Option.some.inj h ▸ .abort reason hlistening
    | false =>
      rw [hlistening, if_neg Bool.false_ne_true] at h
      exact Option.some.inj h ▸ .aborted reason hlistening
  | cancel reason =>
    simp only [step] at h
    split at h
    next hstream => exact Option.some.inj h ▸ .cancel reason hstream
    · cases h

/-- A failed read stops the stream. -/
theorem Inv.onCatch (h : Inv s) {i : Nat} {range : Range} {result : Except String Bytes}
    (hi : s.reads[i]? = some ⟨range, .checked result⟩) : Inv (s.onCatch i range result) := by
  cases result with
  | ok data =>
    have hchecked : (Read.mk range (.checked (.ok data))).Checked := h.checked _ (List.mem_of_getElem? hi)
    exact h.move hi rfl rfl (by intro heq; cases heq) hchecked (by intro heq; cases heq)
  | error reason =>
    have hopen : s.stream ≠ .closed := fun hclosed => Bool.noConfusion (h.idle hclosed hi)
    obtain ⟨hstop, hstopped⟩ := h.stop hopen reason
    have hi' : (s.stop reason).reads[i]? = some ⟨range, .checked (.error reason)⟩ := by
      unfold State.stop
      split <;> exact hi
    exact hstop.move hi' rfl rfl (by intro heq; cases heq) trivial fun _ => hstopped

/-- A read that is done makes room for another. -/
theorem Inv.onFinally (h : Inv s) {i : Nat} {range : Range} {result : Except String Bytes}
    (hi : s.reads[i]? = some ⟨range, .caught result⟩) : Inv (s.onFinally i range result) := by
  have hmem := List.mem_of_getElem? hi
  have hpos : 0 < s.active := by
    rw [h.active]
    exact List.countP_pos_iff.mpr ⟨_, hmem, rfl⟩
  have hchecked := h.checked _ hmem
  have hfailed := h.failed _ hmem
  unfold State.onFinally
  refine Inv.fill (h.setRead hi rfl ?_ (by intro heq; cases heq) ?_ ?_)
  · show s.active - 1 + 1 = s.active + 0
    omega
  · cases result with
    | ok data => exact hchecked
    | error reason => trivial
  · cases result with
    | ok data =>
      intro heq
      cases heq
    | error reason => exact hfailed

/-- A cancelled stream has stopped. -/
theorem Inv.cancel (h : Inv s) (reason : String) : Inv ({ s with stream := .cancelled }.stop reason) := by
  unfold State.stop
  dsimp only
  by_cases hstopped : s.stopped.isSome
  · have hne : s.stopped ≠ none := Option.isSome_iff_ne_none.mp hstopped
    rw [if_pos hstopped]
    exact { h with
      pull := fun hs => absurd hs hne
      stream := fun hs => absurd hs hne
      closed := by intro heq; cases heq }
  · have hne : ∀ {P : Prop}, some reason = none → P := fun heq => by cases heq
    rw [if_neg hstopped]
    exact { h with
      failed := fun _ _ _ => Option.some_ne_none _
      pending := hne
      pull := hne
      stream := hne
      closed := by intro heq; cases heq }

/-- **One step.** -/
theorem inv_step (s : State) (e : Event) (s' : State) (h : Inv s) (hstep : step s e = some s') : Inv s' := by
  cases step_moves hstep with
  | launch refused hi => exact h.launch hi refused
  | answer outcome hi =>
    exact h.move hi rfl rfl (by intro heq; cases heq) trivial (by intro heq; cases heq)
  | check hi =>
    exact h.move hi rfl rfl (by intro heq; cases heq) (checked_check _ _) (by intro heq; cases heq)
  | caught hi => exact h.onCatch hi
  | finished hi => exact h.onFinally hi
  | pull hstream hpull => exact h.startPull hstream hpull
  | resumeEmpty hpull => exact h.resumePull hpull (fun _ => rfl) (by intro r heq; cases heq)
  | resume hpull hphase =>
    refine h.resumePull hpull (by intro heq; cases heq) fun r heq => ⟨_, rfl, ?_⟩
    rw [hphase, Option.some.inj heq]
  | abort reason hlistening =>
    refine (h.stop (fun hclosed => ?_) reason).1
    rw [(h.closed hclosed).2.1] at hlistening
    cases hlistening
  | aborted reason hlistening => exact h
  | cancel reason hstream => exact h.cancel reason

/-! ## §6. What is stopped stays stopped. -/

/-- Nothing is reserved, requested or enqueued any more, and the stream does not close. -/
structure Stays (s s' : State) : Prop where
  stopped : s'.stopped = s.stopped
  requests : s'.requests = s.requests
  reads : s'.reads.length = s.reads.length
  chunks : s'.chunks = s.chunks
  unclosed : s.stream ≠ .closed → s'.stream ≠ .closed

/-- A stream that stays, and stays again. -/
theorem Stays.trans {s₁ s₂ s₃ : State} (h : Stays s₁ s₂) (h' : Stays s₂ s₃) : Stays s₁ s₃ :=
  ⟨h'.stopped.trans h.stopped, h'.requests.trans h.requests, h'.reads.trans h.reads,
    h'.chunks.trans h.chunks, fun hopen => h'.unclosed (h.unclosed hopen)⟩

/-- A stream with nothing done to it stays. -/
theorem stays_refl (s : State) : Stays s s := ⟨rfl, rfl, rfl, rfl, id⟩

/-- It stops once. -/
theorem stop_stopped {reason : String} (h : s.stopped ≠ none) : s.stop reason = s := by
  unfold State.stop
  rw [if_pos (Option.isSome_iff_ne_none.mpr h)]

/-- A read that goes on changes nothing else. -/
theorem setRead_stays (s : State) (i active : Nat) (range : Range) (phase : Phase) :
    Stays s { s.setRead i range phase with active } :=
  ⟨rfl, rfl, List.length_set, rfl, id⟩

/-- `output.error` in a state that is stopped. -/
theorem failPull_stays {reason : String} (h : s.stopped ≠ none) : Stays s (s.failPull reason) ∧
    (s.stream = .readable → (s.failPull reason).stream = .errored reason) := by
  have hstop : ({ s with pull := none } : State).stop reason = { s with pull := none } := stop_stopped h
  unfold State.failPull
  rw [hstop]
  unfold State.error
  split
  next hstream =>
    refine ⟨⟨rfl, rfl, rfl, rfl, fun _ heq => ?_⟩, fun _ => rfl⟩
    cases heq
  next hother => exact ⟨⟨rfl, rfl, rfl, rfl, id⟩, fun hstream => absurd hstream hother⟩

/-- A failure after the stop only moves its own read. -/
theorem onCatch_stopped {i : Nat} {range : Range} {result : Except String Bytes}
    (h : s.stopped ≠ none) : s.onCatch i range result = s.setRead i range (.caught result) := by
  cases result with
  | ok data => rfl
  | error reason =>
    show (s.stop reason).setRead i range (.caught (.error reason)) = _
    rw [stop_stopped h]

/-- **A step in a state that is stopped.**  Whoever pulls is given the error. -/
theorem stopped_step {e : Event} {reason : String} (h : s.stopped = some reason)
    (hstep : step s e = some s') : Stays s s' ∧
      ((e = .pull ∨ e = .resume) → s.stream = .readable → s'.stream = .errored reason) := by
  have hne : s.stopped ≠ none := by
    rw [h]
    exact Option.some_ne_none _
  cases step_moves hstep with
  | launch refused hi =>
    refine ⟨?_, by rintro (heq | heq) <;> cases heq⟩
    unfold State.launch
    rw [h]
    cases refused <;> exact setRead_stays s _ _ _ _
  | answer outcome hi => exact ⟨setRead_stays s _ _ _ _, by rintro (heq | heq) <;> cases heq⟩
  | check hi => exact ⟨setRead_stays s _ _ _ _, by rintro (heq | heq) <;> cases heq⟩
  | @caught i range result hi =>
    refine ⟨?_, by rintro (heq | heq) <;> cases heq⟩
    cases result with
    | ok data => exact setRead_stays s _ _ _ _
    | error reason' =>
      rw [onCatch_stopped hne]
      exact setRead_stays s _ _ _ _
  | finished hi =>
    refine ⟨?_, by rintro (heq | heq) <;> cases heq⟩
    unfold State.onFinally
    rw [fill_stopped (by exact hne)]
    exact setRead_stays s _ _ _ _
  | pull hstream hpull =>
    unfold State.startPull
    rw [h]
    exact ⟨(failPull_stays hne).1, fun _ => (failPull_stays hne).2⟩
  | resumeEmpty hpull =>
    unfold State.resumePull
    rw [h]
    exact ⟨(failPull_stays hne).1, fun _ => (failPull_stays hne).2⟩
  | resume hpull hphase =>
    unfold State.resumePull
    rw [h]
    exact ⟨(failPull_stays hne).1, fun _ => (failPull_stays hne).2⟩
  | abort reason' hlistening =>
    rw [stop_stopped hne]
    exact ⟨stays_refl s, by rintro (heq | heq) <;> cases heq⟩
  | aborted reason' hlistening => exact ⟨stays_refl s, by rintro (heq | heq) <;> cases heq⟩
  | cancel reason' hstream =>
    refine ⟨?_, by rintro (heq | heq) <;> cases heq⟩
    have hstop : ({ s with stream := .cancelled } : State).stop reason' =
        { s with stream := .cancelled } := stop_stopped hne
    rw [hstop]
    refine ⟨rfl, rfl, rfl, rfl, fun _ heq => ?_⟩
    cases heq

/-- **After the stop every run leaves the stream where it is**: no request, and no chunk. -/
theorem stopped_run {events : List Event} : ∀ {s s' : State} {reason : String},
    s.stopped = some reason → run step s events = some s' → Stays s s' := by
  induction events with
  | nil =>
    intro s s' reason _ hrun
    obtain rfl := Option.some.inj hrun
    exact stays_refl s
  | cons e events ih =>
    intro s s' reason h hrun
    obtain ⟨s₁, hstep, hrest⟩ := run_cons hrun
    have hone := (stopped_step h hstep).1
    exact hone.trans (ih (hone.stopped.trans h) hrest)

/-! ## §7. A `pull` that is suspended comes back. -/

/-- The range can go on to its end, with nothing else changed for the stream. -/
def Drains (s : State) (i : Nat) : Prop :=
  ∃ events s' result, run step s events = some s' ∧ s'.stopped = s.stopped ∧
    s'.stream = s.stream ∧ s'.pull = s.pull ∧ s'.phase? i = some (.done result)

/-- One event of a read that drains. -/
theorem Drains.cons {i : Nat} {e : Event} {s₁ : State} (hstep : step s e = some s₁)
    (hstopped : s₁.stopped = s.stopped) (hstream : s₁.stream = s.stream) (hpull : s₁.pull = s.pull)
    (h : Drains s₁ i) : Drains s i := by
  obtain ⟨events, s', result, hrun, hsame⟩ := h
  rw [hstopped, hstream, hpull] at hsame
  refine ⟨e :: events, s', result, ?_, hsame⟩
  unfold run
  rw [hstep]
  exact hrun

/-- The read that was set. -/
theorem setRead_self {i : Nat} {range : Range} {p : Phase} (hi : s.reads[i]? = some ⟨range, p⟩)
    (q : Phase) : (s.setRead i range q).reads[i]? = some ⟨range, q⟩ :=
  List.getElem?_set_self (List.getElem?_eq_some_iff.mp hi).1

/-- A read that has been caught drains in one event. -/
theorem drain_caught {i : Nat} {range : Range} {result : Except String Bytes} (h : s.stopped ≠ none)
    (hi : s.reads[i]? = some ⟨range, .caught result⟩) : Drains s i := by
  have hstep : step s (.finished i) = some (s.onFinally i range result) := by
    simp only [step, hi]
  have hfinally : s.onFinally i range result =
      { s.setRead i range (.done result) with active := s.active - 1 } :=
    fill_stopped h
  refine .cons hstep (by rw [hfinally]; rfl) (by rw [hfinally]; rfl) (by rw [hfinally]; rfl)
    ⟨[], _, result, rfl, rfl, rfl, rfl, ?_⟩
  rw [hfinally]
  show ((s.setRead i range (.done result)).reads[i]?).map Read.phase = _
  rw [setRead_self hi]
  rfl

/-- One that has been checked drains in two. -/
theorem drain_checked {i : Nat} {range : Range} {result : Except String Bytes} (h : s.stopped ≠ none)
    (hi : s.reads[i]? = some ⟨range, .checked result⟩) : Drains s i := by
  have hstep : step s (.caught i) = some (s.setRead i range (.caught result)) := by
    simp only [step, hi, onCatch_stopped h]
  exact .cons hstep rfl rfl rfl (drain_caught h (setRead_self hi _))

/-- One that has been answered drains in three. -/
theorem drain_settled {i : Nat} {range : Range} {outcome : Outcome} (h : s.stopped ≠ none)
    (hi : s.reads[i]? = some ⟨range, .settled outcome⟩) : Drains s i := by
  have hstep : step s (.check i) = some (s.setRead i range (.checked (check range outcome))) := by
    simp only [step, hi]
  exact .cons hstep rfl rfl rfl (drain_checked h (setRead_self hi _))

/-- Once everything is stopped, every range can go on to its end. -/
theorem drain {i : Nat} {range : Range} {phase : Phase} (h : s.stopped ≠ none)
    (hi : s.reads[i]? = some ⟨range, phase⟩) : Drains s i := by
  cases phase with
  | reserved =>
    obtain ⟨reason, hreason⟩ := Option.ne_none_iff_exists'.mp h
    have hstep : step s (.launch i none) = some (s.setRead i range (.settled (.failed reason))) := by
      simp only [step, hi, State.launch, hreason]
    exact .cons hstep rfl rfl rfl (drain_settled h (setRead_self hi _))
  | requested =>
    obtain ⟨reason, -⟩ := Option.ne_none_iff_exists'.mp h
    have hstep : step s (.answer i (.failed reason)) =
        some (s.setRead i range (.settled (.failed reason))) := by
      simp only [step, hi]
    exact .cons hstep rfl rfl rfl (drain_settled h (setRead_self hi _))
  | settled outcome => exact drain_settled h hi
  | checked result => exact drain_checked h hi
  | caught result => exact drain_caught h hi
  | done result =>
    refine ⟨[], s, result, rfl, rfl, rfl, rfl, ?_⟩
    rw [State.phase?, hi]
    rfl

/-- **The error is delivered.**  A stream that is stopped can always be pulled, or its `pull` come
back, and then it fails. -/
theorem Inv.delivers (h : Inv s) {reason : String} (hstopped : s.stopped = some reason)
    (hreadable : s.stream = .readable) :
    ∃ events s', run step s events = some s' ∧ s'.stream = .errored reason := by
  have hne : s.stopped ≠ none := by
    rw [hstopped]
    exact Option.some_ne_none _
  have herror : (s.failPull reason).stream = .errored reason := (failPull_stays hne).2 hreadable
  cases hpull : s.pull with
  | none =>
    refine ⟨[.pull], s.failPull reason, ?_, herror⟩
    simp only [run, step, hreadable, hpull, true_and, if_pos, State.startPull, hstopped]
  | some head =>
    cases head with
    | none =>
      refine ⟨[.resume], s.failPull reason, ?_, herror⟩
      simp only [run, step, hpull, State.resumePull, hstopped]
    | some i =>
      obtain ⟨⟨range, phase⟩, hget⟩ : ∃ r, s.reads[i]? = some r :=
        ⟨_, List.getElem?_eq_getElem (h.head i hpull)⟩
      obtain ⟨events, s', result, hrun, hstopped', hstream', hpull', hdone⟩ := drain hne hget
      rw [hstopped] at hstopped'
      have hne' : s'.stopped ≠ none := by
        rw [hstopped']
        exact Option.some_ne_none _
      refine ⟨events ++ [.resume], s'.failPull reason, ?_, (failPull_stays hne').2 (hstream'.trans hreadable)⟩
      rw [run_snoc hrun]
      simp only [step, hpull'.trans hpull, hdone, State.resumePull, hstopped']

end Steps

/-! ## §8. Every run. -/

/-- What is true of the stream at every moment. -/
structure ReadAhead (s : State) : Prop where
  /-- The chunks are what was read of the ranges of the file, in order from the first. -/
  inOrder : ∀ (k : Nat) (b : Bytes), s.chunks[k]? = some b → ∃ r : Read, s.reads[k]? = some r ∧
    r.range = rangeAt s.size k ∧ r.phase = .done (.ok b) ∧ b.length = r.range.count
  once : s.requests.Nodup ∧ ∀ q ∈ s.requests, ∃ k, k * rangeBytes < s.size ∧ q = rangeAt s.size k
  active : s.reads.countP Read.busy ≤ 4
  /-- What is active, or done and not consumed. -/
  reserved : s.reads.length ≤ s.chunks.length + 16
  whole : s.stream = .closed → (s.chunks.map List.length).sum = s.size
  failed : (∃ r ∈ s.reads, r.failed = true) → s.stopped ≠ none

/-- The invariant gives the order, the bounds and the closing. -/
theorem Inv.readAhead {s : State} (h : Inv s) : ReadAhead s := by
  refine ⟨fun k b hb => ?_, ⟨h.requests.1, fun q hq => ?_⟩, ?_, h.unread, fun hclosed => ?_, ?_⟩
  · obtain ⟨r, hr, hphase⟩ := Option.map_eq_some_iff.mp (h.chunks k b hb)
    have hchecked := h.checked r (List.mem_of_getElem? hr)
    rw [Read.Checked, hphase] at hchecked
    exact ⟨r, hr, (h.reads k r hr).1, hphase, hchecked⟩
  · obtain ⟨k, r, hk, hrange, -⟩ := h.requests.2 q hq
    obtain ⟨hat, hin⟩ := h.reads k r hk
    exact ⟨k, hin, hrange.trans hat⟩
  · rw [← h.active]
    exact h.few
  · have hsize := (h.closed hclosed).2.2
    rw [h.total, h.offset]
    exact Nat.min_eq_right hsize
  · rintro ⟨r, hr, hfailed⟩
    exact h.failed r hr hfailed

/-- What is true from the moment on at which a range failed, the signal aborted or the consumer
cancelled. -/
structure Over (s : State) (reason : String) : Prop where
  unclosed : s.stream ≠ .closed
  later : ∀ events s', run step s events = some s' → Stays s s'
  errors : ∀ e s', e = .pull ∨ e = .resume → s.stream = .readable → step s e = some s' →
    s'.stream = .errored reason
  delivered : s.stream = .readable →
    ∃ events s', run step s events = some s' ∧ s'.stream = .errored reason

/-- **Published state input is an ordered, bounded read-ahead**, for every file size, however the
requests end and the stream is used. -/
theorem read_ahead {size : Nat} {events : List Event} {s : State}
    (hrun : run step (State.start size) events = some s) :
    ReadAhead s ∧ (∀ reason, s.stopped = some reason → Over s reason) ∧
      ∀ reason, s.stream = .readable → ∃ stopped cancelled,
        step s (.abort reason) = some stopped ∧ stopped.stopped ≠ none ∧
        step s (.cancel reason) = some cancelled ∧ cancelled.stopped ≠ none := by
  have h := run_keeps inv_step events _ _ (inv_start size) hrun
  refine ⟨h.readAhead, fun reason hstopped => ?_, fun reason hreadable => ?_⟩
  · refine ⟨fun hclosed => ?_, fun events s' hrest => stopped_run hstopped hrest,
      fun e s' he hreadable hstep => (stopped_step hstopped hstep).2 he hreadable,
      h.delivers hstopped⟩
    rw [(h.closed hclosed).1] at hstopped
    cases hstopped
  · have hopen : s.stream ≠ .closed := by
      rw [hreadable]
      intro heq
      cases heq
    refine ⟨_, { s with stream := .cancelled }.stop reason, rfl, ?_, ?_, ?_⟩
    · cases hstopped : s.stopped with
      | none =>
        have hlistening : s.listening = true := by
          rcases h.stream hstopped with ⟨-, hlistening⟩ | hclosed
          · exact hlistening
          · exact absurd hclosed hopen
        rw [if_pos hlistening]
        exact (h.stop hopen reason).2
      | some old =>
        have hne : s.stopped ≠ none := by
          rw [hstopped]
          exact Option.some_ne_none _
        split
        · exact (h.stop hopen reason).2
        · exact hne
    · simp only [step]
      rw [if_pos hreadable]
    · unfold State.stop
      dsimp only
      split
      next hsome => exact Option.isSome_iff_ne_none.mp hsome
      · exact Option.some_ne_none _

/-- A file of three ranges: the last is there first, and the second is pulled before it is there. -/
def demoEvents (a b c : Bytes) : List Event :=
  [.pull, .launch 0 none, .launch 1 none, .launch 2 none,
    .answer 2 (.bytes c), .check 2, .caught 2, .finished 2,
    .answer 0 (.bytes a), .check 0, .caught 0, .finished 0, .resume, .pull,
    .answer 1 (.bytes b), .check 1, .caught 1, .finished 1, .resume, .pull, .resume, .pull]

/-- 256 KiB. -/
theorem rangeBytes_eq : rangeBytes = 262144 := by
  unfold rangeBytes
  rfl

/-- A file of two ranges and one byte; the ranges are answered in another order. -/
theorem demo_run {a b c : Bytes} (ha : a.length = 262144) (hb : b.length = 262144) (hc : c.length = 1) :
    ∃ s, run step (State.start 524289) (demoEvents a b c) = some s ∧ s.stream = .closed ∧
      s.chunks = [a, b, c] := by
  simp [demoEvents, run, step, State.start, State.startPull, State.await, State.fill, State.fillFor,
    State.room, State.reserve, State.launch, State.setRead, State.onCatch, State.onFinally,
    State.resumePull, State.deliver, State.phase?, State.close, check, rangeBytes_eq, ha, hb, hc]

/-- Its chunks come in the order of the file. -/
theorem demo_read_ahead : ∃ a b c s, run step (State.start 524289) (demoEvents a b c) = some s ∧
    s.stream = .closed ∧ s.chunks = [a, b, c] ∧ ReadAhead s := by
  have hlength : (List.replicate 262144 (0 : UInt8)).length = 262144 := List.length_replicate
  obtain ⟨s, hrun, hclosed, hchunks⟩ := demo_run hlength hlength (c := [7]) rfl
  exact ⟨_, _, _, s, hrun, hclosed, hchunks, (read_ahead hrun).1⟩

end My98.Web.StateInput
