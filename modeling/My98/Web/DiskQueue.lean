/-
  My98.Web.DiskQueue — the requests of v86's disk adapter, each exactly once
  (`src/disk/web/client.js`: `DiskBuffer`).

  `Web.DiskBuffer` models the adapter.  Here it keeps a JOURNAL: every request gets a number when
  it is enqueued, and what the adapter does to the client and to its callers is written down.
  The client is anybody: it may answer a request with any bytes, or refuse it, and between any
  two turns of `pump` the machine may call `get`, `set`, `fail`, `retry` or `dispose`, also from
  inside a callback.

    • `exactly_once` — the journal of every run is a run of the FIFO machine, so it delivers
      exactly once and in order.
-/
import My98.Lib.Fifo
import My98.Web.DiskBuffer

namespace My98.Web

open My98.Lib

/-! ## §1. The journal. -/

structure Journal where
  buffer : Buffer
  /-- The numbers of the queued requests. -/
  numbers : List Nat
  /-- The number of the request that `pump` took last. -/
  current : Nat
  /-- How many requests were ever queued. -/
  count : Nat
  log : List (Fifo.Entry Request Bytes)

/-- What happens to the adapter; callbacks do not throw. -/
inductive Turn where
  | get (offset length : Nat)
  | getAndCache (offset length : Nat)
  | set (offset : Nat) (bytes : Bytes)
  | fail
  | retry
  | resumed (ok : Bool)
  | dispose
  /-- The client answers the request it was given, or rejects it. -/
  | answered (result : Bytes)
  | refused
  /-- `onError` returns. -/
  | reported
  /-- The callback returns. -/
  | delivered

namespace Journal

def new : Journal := { buffer := Buffer.new, numbers := [], current := 0, count := 0, log := [] }

/-- The adapter moves on.  If it waits for the client now and did not before, it has issued the
    first request of its queue. -/
def moved (j : Journal) (b : Buffer) : Journal :=
  match j.buffer.phase, b.phase with
  | .waiting _, _ => { j with buffer := b }
  | _, .waiting request =>
    { j with
      buffer := b
      current := j.numbers.headD 0
      log := j.log ++ [.issued (j.numbers.headD 0) request] }
  | _, _ => { j with buffer := b }

/-- A request was enqueued, and the adapter is `b` now. -/
def enqueued (j : Journal) (request : Request) (b : Buffer) : Journal :=
  if j.buffer.disposed then { j with buffer := b }
  else
    Journal.moved
      { j with
        numbers := j.numbers ++ [j.count]
        count := j.count + 1
        log := j.log ++ [.accepted request] } b

/-- The client answered, and the adapter is `b` now: the first request has left the queue and
    its callback is being called, unless the adapter was disposed of. -/
def completed (j : Journal) (result : Bytes) (b : Buffer) : Journal :=
  if j.buffer.disposed then
    { j with buffer := b, log := j.log ++ [.answered j.current result] }
  else
    { j with
      buffer := b
      numbers := j.numbers.tail
      log := j.log ++ [.answered j.current result, .called j.current result] }

/-- The callback returned. -/
def delivered (j : Journal) : Journal :=
  { j with
    buffer := { j.buffer with phase := .idle }
    log := j.log ++ [.returned j.current] }

def step (j : Journal) : Turn → Option Journal
  | .get offset length =>
    some (j.enqueued { offset, length, bytes := none, caching := false } (j.buffer.get offset length))
  | .getAndCache offset length =>
    some (j.enqueued { offset, length, bytes := none, caching := true }
      (j.buffer.getAndCache offset length))
  | .set offset bytes =>
    some (j.enqueued { offset, length := bytes.length, bytes := some bytes, caching := false }
      (j.buffer.set offset bytes))
  | .fail => some { j with buffer := j.buffer.fail, log := j.log ++ [.failed] }
  | .retry => j.buffer.retry.map fun b => { j with buffer := b, log := j.log ++ [.retried] }
  | .resumed ok => (j.buffer.resumed ok).map j.moved
  | .dispose =>
    some { j with buffer := j.buffer.dispose, numbers := [], log := j.log ++ [.closed] }
  | .answered result =>
    match j.buffer.phase with
    | .waiting request => some (j.completed result (j.buffer.complete request result))
    | _ => none
  | .refused =>
    match j.buffer.phase with
    | .waiting _ => some { j with buffer := j.buffer.reject, log := j.log ++ [.refused j.current] }
    | _ => none
  | .reported =>
    if j.buffer.phase = .reporting then some { j with buffer := { j.buffer with phase := .idle } }
    else none
  | .delivered =>
    if j.buffer.phase = .delivering then some (j.delivered.moved j.buffer.turn) else none

end Journal

/-! ## §2. The journal is a run of the FIFO machine. -/

/-- Where the first request is, seen from the phase of `pump`. -/
def Phase.stage : Phase → Fifo.Stage Bytes
  | .idle => .queued
  | .waiting _ => .flying
  | .reporting => .queued
  | .delivering => .calling

/-- The first request that has not left the queue. -/
def firstQueued (q : Fifo.Queue Request Bytes) : Nat :=
  q.done + if q.stage.isCalling then 1 else 0

/-- **The adapter is the FIFO machine**, as far as its journal says. -/
structure Simulates (j : Journal) (q : Fifo.Queue Request Bytes) : Prop where
  log : run Fifo.Queue.step Fifo.Queue.new j.log = some q
  closed : q.closed = j.buffer.disposed
  stuck : q.stuck = j.buffer.failed
  stage : q.stage = j.buffer.phase.stage
  /-- The request that is served was accepted, and `current` is its number. -/
  current : q.stage ≠ .queued → j.current = q.done ∧ q.done < q.accepted.length
  bound : q.done ≤ q.accepted.length
  count : j.count = q.accepted.length
  queue : j.buffer.disposed = false → j.buffer.queue = q.accepted.drop (firstQueued q)
  numbers : j.buffer.disposed = false → j.numbers = (List.range j.count).drop (firstQueued q)

section Moves

variable {j : Journal}

theorem Journal.moved_self : j.moved j.buffer = j := by
  unfold Journal.moved
  cases hp : j.buffer.phase <;> rfl

theorem Journal.moved_idle {b : Buffer} (hb : b.phase = .idle) :
    j.moved b = { j with buffer := b } := by
  unfold Journal.moved
  rw [hb]
  cases j.buffer.phase <;> rfl

theorem Journal.moved_waiting {b : Buffer} {request : Request} (hj : j.buffer.phase = .idle)
    (hb : b.phase = .waiting request) :
    j.moved b = { j with
      buffer := b
      current := j.numbers.headD 0
      log := j.log ++ [.issued (j.numbers.headD 0) request] } := by
  unfold Journal.moved
  rw [hj, hb]

/-- The loop takes the first request, or leaves the queue alone. -/
theorem Buffer.turn_cases (b : Buffer) :
    (∃ request rest, b.queue = request :: rest ∧ b.failed = false ∧ b.disposed = false ∧
        b.turn = { b with phase := .waiting request }) ∨ b.turn = { b with phase := .idle } := by
  by_cases hgo : b.failed = false ∧ b.disposed = false
  · cases hb : b.queue with
    | nil =>
      right
      simp [Buffer.turn, hb]
    | cons request rest =>
      left
      refine ⟨request, rest, rfl, hgo.1, hgo.2, ?_⟩
      simp [Buffer.turn, hb, hgo]
  · right
    cases hb : b.queue <;> simp [Buffer.turn, hb, hgo]

/-- A completed request leaves the queue and its callback is called. -/
theorem Buffer.complete_open {b : Buffer} (request : Request) (result : Bytes)
    (hb : b.disposed = false) :
    (b.complete request result).queue = b.queue.tail ∧
      (b.complete request result).phase = .delivering ∧
      (b.complete request result).failed = b.failed ∧
      (b.complete request result).disposed = false := by
  unfold Buffer.complete
  rw [hb]
  simp only [Bool.false_eq_true, if_false]
  split <;> exact ⟨rfl, rfl, rfl, rfl⟩

end Moves

namespace Simulates

variable {j : Journal} {q : Fifo.Queue Request Bytes}

theorem new : Simulates Journal.new Fifo.Queue.new where
  log := rfl
  closed := rfl
  stuck := rfl
  stage := rfl
  current := fun h => absurd rfl h
  bound := Nat.le_refl _
  count := rfl
  queue := fun _ => rfl
  numbers := fun _ => rfl

/-- Only the queue, the phase and the two flags of the adapter matter. -/
theorem congr (h : Simulates j q) {b : Buffer} (hqueue : b.queue = j.buffer.queue)
    (hphase : b.phase.stage = j.buffer.phase.stage) (hfailed : b.failed = j.buffer.failed)
    (hdisposed : b.disposed = j.buffer.disposed) : Simulates { j with buffer := b } q :=
  ⟨h.log, h.closed.trans hdisposed.symm, h.stuck.trans hfailed.symm, h.stage.trans hphase.symm,
    h.current, h.bound, h.count, fun hopen => hqueue.trans (h.queue (hdisposed.symm.trans hopen)),
    fun hopen => h.numbers (hdisposed.symm.trans hopen)⟩

/-- The loop of `pump` goes round: it takes the first request, or ends. -/
theorem turn (h : Simulates j q) (hphase : j.buffer.phase = .idle) :
    ∃ q', Simulates (j.moved j.buffer.turn) q' := by
  have hstage : q.stage = .queued := by
    rw [h.stage, hphase]
    rfl
  have hfirst : firstQueued q = q.done := by
    unfold firstQueued
    rw [hstage]
    rfl
  rcases j.buffer.turn_cases with ⟨request, rest, hj, hfailed, hdisposed, hturn⟩ | hturn
  · have hqueue := h.queue hdisposed
    have hnumbers := h.numbers hdisposed
    rw [hfirst] at hqueue hnumbers
    -- the first request of the queue is the one whose number is `done`
    have hrequest : q.accepted[q.done]? = some request := by
      rw [← List.head?_drop, ← hqueue, hj]
      rfl
    have hdone : q.done < q.accepted.length := (List.getElem?_eq_some_iff.mp hrequest).1
    have hnumber : j.numbers.headD 0 = q.done := by
      rw [hnumbers, List.headD_eq_head?_getD, List.head?_drop, h.count]
      simp [hdone]
    rw [hturn, Journal.moved_waiting hphase rfl, hnumber]
    refine ⟨{ q with stage := .flying }, ⟨?_, h.closed, h.stuck, rfl, fun _ => ⟨rfl, hdone⟩,
      h.bound, h.count, fun _ => hqueue, fun _ => hnumbers⟩⟩
    rw [run_snoc h.log]
    exact if_pos ⟨hstage, h.stuck.trans hfailed, h.closed.trans hdisposed, rfl, hrequest⟩
  · rw [hturn, Journal.moved_idle rfl]
    refine ⟨q, h.congr rfl ?_ rfl rfl⟩
    rw [hphase]

theorem pump (h : Simulates j q) : ∃ q', Simulates (j.moved j.buffer.pump) q' := by
  unfold Buffer.pump
  by_cases hguard : j.buffer.phase ≠ .idle ∨ j.buffer.failed = true ∨ j.buffer.disposed = true
  · rw [if_pos hguard, Journal.moved_self]
    exact ⟨q, h⟩
  · rw [if_neg hguard]
    push Not at hguard
    exact h.turn hguard.1

/-- A request is enqueued; `set` may have dropped the boot sector before. -/
theorem enqueued (h : Simulates j q) (request : Request) {b : Buffer}
    (hqueue : b.queue = j.buffer.queue) (hphase : b.phase = j.buffer.phase)
    (hfailed : b.failed = j.buffer.failed) (hdisposed : b.disposed = j.buffer.disposed) :
    ∃ q', Simulates (j.enqueued request (b.enqueue request)) q' := by
  unfold Journal.enqueued Buffer.enqueue
  by_cases hclosed : j.buffer.disposed = true
  · rw [if_pos hclosed, if_pos (hdisposed.trans hclosed)]
    exact ⟨q, h.congr hqueue (congrArg Phase.stage hphase) hfailed hdisposed⟩
  · rw [if_neg hclosed, if_neg (fun hb => hclosed (hdisposed.symm.trans hb))]
    have hopen : j.buffer.disposed = false := Bool.eq_false_iff.mpr hclosed
    have hfirst : firstQueued q ≤ q.accepted.length := by
      unfold firstQueued
      split
      · rename_i hcalling
        apply (h.current ?_).2
        intro hqueued
        rw [hqueued] at hcalling
        cases hcalling
      · exact h.bound
    -- the journal with the request in the queue, before `pump` looks at it
    let pushed : Journal :=
      { j with
        buffer := { b with queue := b.queue ++ [request] }
        numbers := j.numbers ++ [j.count]
        count := j.count + 1
        log := j.log ++ [.accepted request] }
    have hpushed : Simulates pushed { q with accepted := q.accepted ++ [request] } := by
      refine ⟨?_, h.closed.trans hdisposed.symm, h.stuck.trans hfailed.symm, ?_, ?_, ?_, ?_, ?_, ?_⟩
      · show run _ _ (j.log ++ [_]) = _
        rw [run_snoc h.log]
        exact if_pos (h.closed.trans hopen)
      · exact h.stage.trans (congrArg Phase.stage hphase.symm)
      · intro hstage
        obtain ⟨hcurrent, hdone⟩ := h.current hstage
        exact ⟨hcurrent, by simp; omega⟩
      · have := h.bound
        simp only [List.length_append, List.length_singleton]
        omega
      · show j.count + 1 = (q.accepted ++ [request]).length
        rw [h.count, List.length_append]
        rfl
      · intro _
        show b.queue ++ [request] = (q.accepted ++ [request]).drop (firstQueued q)
        rw [List.drop_append_of_le_length hfirst, hqueue, h.queue hopen]
      · intro _
        show j.numbers ++ [j.count] = (List.range (j.count + 1)).drop (firstQueued q)
        rw [List.range_succ, List.drop_append_of_le_length (by rw [List.length_range, h.count]; exact hfirst),
          h.numbers hopen]
    have hsame : ∀ b' : Buffer,
        Journal.moved
          { j with
            numbers := j.numbers ++ [j.count]
            count := j.count + 1
            log := j.log ++ [.accepted request] } b' = pushed.moved b' := by
      intro b'
      unfold Journal.moved
      rw [show pushed.buffer.phase = j.buffer.phase from hphase]
    rw [hsame]
    exact hpushed.pump

/-- The request in flight is `done`, and so is its number. -/
theorem flying (h : Simulates j q) {request : Request} (hphase : j.buffer.phase = .waiting request) :
    q.stage = .flying ∧ j.current = q.done ∧ q.done < q.accepted.length := by
  have hstage : q.stage = .flying := by
    rw [h.stage, hphase]
    rfl
  refine ⟨hstage, h.current ?_⟩
  rw [hstage]
  intro hqueued
  cases hqueued

/-- The client answers. -/
theorem completed (h : Simulates j q) {request : Request}
    (hphase : j.buffer.phase = .waiting request) (result : Bytes) :
    ∃ q', Simulates (j.completed result (j.buffer.complete request result)) q' := by
  obtain ⟨hstage, hcurrent, hdone⟩ := h.flying hphase
  unfold Journal.completed
  by_cases hclosed : j.buffer.disposed = true
  · rw [if_pos hclosed]
    have hbuffer : j.buffer.complete request result = { j.buffer with phase := .idle } := by
      unfold Buffer.complete
      rw [if_pos hclosed]
    rw [hbuffer]
    refine ⟨{ q with stage := .queued }, ⟨?_, h.closed, h.stuck, rfl, fun hs => absurd rfl hs,
      h.bound, h.count, fun hopen => ?_, fun hopen => ?_⟩⟩
    · show run _ _ (j.log ++ [_]) = _
      rw [run_snoc h.log]
      show (if q.stage = .flying ∧ j.current = q.done then
        some { q with stage := if q.closed then .queued else .answered result } else none) = _
      rw [if_pos ⟨hstage, hcurrent⟩, if_pos (h.closed.trans hclosed)]
    · rw [show j.buffer.disposed = false from hopen] at hclosed
      cases hclosed
    · rw [show j.buffer.disposed = false from hopen] at hclosed
      cases hclosed
  · rw [if_neg hclosed]
    have hopen : j.buffer.disposed = false := Bool.eq_false_iff.mpr hclosed
    have hqclosed : q.closed = false := h.closed.trans hopen
    obtain ⟨hqueue, hphase', hfailed, hdisposed⟩ := j.buffer.complete_open request result hopen
    have hfirst : firstQueued q = q.done := by
      unfold firstQueued
      rw [hstage]
      rfl
    refine ⟨{ q with stage := .calling }, ⟨?_, hqclosed.trans hdisposed.symm,
      h.stuck.trans hfailed.symm, ?_, fun _ => ⟨hcurrent, hdone⟩, h.bound, h.count, fun _ => ?_,
      fun _ => ?_⟩⟩
    · -- the answer, and then the call
      have hanswered : run Fifo.Queue.step Fifo.Queue.new (j.log ++ [.answered j.current result])
          = some { q with stage := .answered result } := by
        rw [run_snoc h.log]
        show (if q.stage = .flying ∧ j.current = q.done then
          some { q with stage := if q.closed then .queued else .answered result } else none) = _
        rw [if_pos ⟨hstage, hcurrent⟩, hqclosed]
        rfl
      show run _ _ (j.log ++ ([_] ++ [_])) = _
      rw [← List.append_assoc, run_snoc hanswered]
      exact if_pos ⟨rfl, hcurrent, hqclosed⟩
    · show Fifo.Stage.calling = (j.buffer.complete request result).phase.stage
      rw [hphase']
      rfl
    · show (j.buffer.complete request result).queue = q.accepted.drop (q.done + 1)
      rw [hqueue, h.queue hopen, hfirst, List.tail_drop]
    · show j.numbers.tail = (List.range j.count).drop (q.done + 1)
      rw [h.numbers hopen, hfirst, List.tail_drop]

/-- The client rejects: the request stays where it is. -/
theorem refused (h : Simulates j q) {request : Request}
    (hphase : j.buffer.phase = .waiting request) :
    Simulates { j with buffer := j.buffer.reject, log := j.log ++ [.refused j.current] }
      { q with stage := .queued, stuck := true } := by
  obtain ⟨hstage, hcurrent, hdone⟩ := h.flying hphase
  have hfirst : firstQueued q = q.done := by
    unfold firstQueued
    rw [hstage]
    rfl
  refine ⟨?_, h.closed, rfl, rfl, fun hs => absurd rfl hs, h.bound, h.count, fun hopen => ?_,
    fun hopen => ?_⟩
  · show run _ _ (j.log ++ [_]) = _
    rw [run_snoc h.log]
    exact if_pos ⟨hstage, hcurrent⟩
  · exact (h.queue hopen).trans (by rw [hfirst]; rfl)
  · exact (h.numbers hopen).trans (by rw [hfirst]; rfl)

/-- The callback returns. -/
theorem delivered (h : Simulates j q) (hphase : j.buffer.phase = .delivering) :
    Simulates j.delivered { q with stage := .queued, done := q.done + 1 } := by
  have hstage : q.stage = .calling := by
    rw [h.stage, hphase]
    rfl
  obtain ⟨hcurrent, hdone⟩ := h.current (by rw [hstage]; intro hq; cases hq)
  have hfirst : firstQueued q = q.done + 1 := by
    unfold firstQueued
    rw [hstage]
    rfl
  refine ⟨?_, h.closed, h.stuck, rfl, fun hs => absurd rfl hs, hdone, h.count, fun hopen => ?_,
    fun hopen => ?_⟩
  · show run _ _ (j.log ++ [_]) = _
    rw [run_snoc h.log]
    exact if_pos ⟨hstage, hcurrent⟩
  · exact (h.queue hopen).trans (by rw [hfirst]; rfl)
  · exact (h.numbers hopen).trans (by rw [hfirst]; rfl)

/-- An entry that only says whether the adapter is stuck. -/
theorem flagged (h : Simulates j q) {e : Fifo.Entry Request Bytes} {failed : Bool} {resuming : Nat}
    (he : q.step e = some { q with stuck := failed }) :
    Simulates { j with buffer := { j.buffer with failed, resuming }, log := j.log ++ [e] }
      { q with stuck := failed } :=
  ⟨(run_snoc h.log).trans he, h.closed, rfl, h.stage, h.current, h.bound, h.count, h.queue,
    h.numbers⟩

/-- **Every turn of the adapter is a move of the machine.** -/
theorem step {j' : Journal} {e : Turn} (h : Simulates j q) (hs : j.step e = some j') :
    ∃ q', Simulates j' q' := by
  cases e with
  | get offset length =>
    obtain rfl := Option.some.inj hs
    exact h.enqueued _ rfl rfl rfl rfl
  | getAndCache offset length =>
    obtain rfl := Option.some.inj hs
    exact h.enqueued _ rfl rfl rfl rfl
  | set offset bytes =>
    obtain rfl := Option.some.inj hs
    unfold Buffer.set Buffer.dropBoot
    split <;> exact h.enqueued _ rfl rfl rfl rfl
  | fail =>
    obtain rfl := Option.some.inj hs
    exact ⟨_, h.flagged rfl⟩
  | retry =>
    obtain ⟨b, hb, rfl⟩ := Option.map_eq_some_iff.mp hs
    unfold Buffer.retry at hb
    split at hb
    · cases hb
    · obtain rfl := Option.some.inj hb
      exact ⟨_, h.flagged rfl⟩
  | resumed ok =>
    obtain ⟨b, hb, rfl⟩ := Option.map_eq_some_iff.mp hs
    unfold Buffer.resumed at hb
    split at hb
    · cases hb
    · obtain rfl := Option.some.inj hb
      -- The counter of resumptions is not part of the queue.
      have hless : Simulates { j with
          buffer := { j.buffer with resuming := j.buffer.resuming - 1 } } q :=
        h.congr rfl rfl rfl rfl
      cases ok with
      | true => exact hless.pump
      | false =>
        refine ⟨q, ?_⟩
        have hmoved : j.moved { j.buffer with resuming := j.buffer.resuming - 1 }
            = { j with buffer := { j.buffer with resuming := j.buffer.resuming - 1 } } := by
          unfold Journal.moved
          cases j.buffer.phase <;> rfl
        rw [if_neg Bool.false_ne_true, hmoved]
        exact hless
  | dispose =>
    obtain rfl := Option.some.inj hs
    -- What is still in the queue is dropped on both sides.
    refine ⟨{ q with closed := true }, ⟨?_, rfl, h.stuck, h.stage, h.current, h.bound, h.count,
      fun hopen => ?_, fun hopen => ?_⟩⟩
    · show run _ _ (j.log ++ [_]) = _
      rw [run_snoc h.log]
      rfl
    · cases hopen
    · cases hopen
  | answered result =>
    unfold Journal.step at hs
    cases hphase : j.buffer.phase with
    | waiting request =>
      rw [hphase] at hs
      obtain rfl := Option.some.inj hs
      exact h.completed hphase result
    | idle => rw [hphase] at hs; cases hs
    | reporting => rw [hphase] at hs; cases hs
    | delivering => rw [hphase] at hs; cases hs
  | refused =>
    unfold Journal.step at hs
    cases hphase : j.buffer.phase with
    | waiting request =>
      rw [hphase] at hs
      obtain rfl := Option.some.inj hs
      exact ⟨_, h.refused hphase⟩
    | idle => rw [hphase] at hs; cases hs
    | reporting => rw [hphase] at hs; cases hs
    | delivering => rw [hphase] at hs; cases hs
  | reported =>
    simp only [Journal.step, Option.ite_none_right_eq_some, Option.some.injEq] at hs
    obtain ⟨hphase, rfl⟩ := hs
    refine ⟨q, h.congr rfl ?_ rfl rfl⟩
    rw [hphase]
    rfl
  | delivered =>
    simp only [Journal.step, Option.ite_none_right_eq_some, Option.some.injEq] at hs
    obtain ⟨hphase, rfl⟩ := hs
    exact (h.delivered hphase).turn rfl

end Simulates

/-- **Exactly once, in order**: what the adapter does to the client and to its callers, in every
    run. -/
theorem exactly_once (turns : List Turn) (j : Journal)
    (hrun : run Journal.step Journal.new turns = some j) : Fifo.ExactlyOnce j.log := by
  obtain ⟨q, hq⟩ := run_keeps (I := fun j => ∃ q, Simulates j q)
    (fun _ _ _ h hs => h.elim fun _ h => h.step hs) turns Journal.new j ⟨_, Simulates.new⟩ hrun
  exact Fifo.exactlyOnce_of_run hq.log

/-- A write and a read; the write is refused, and once more issued after the retry, while the
    callback of the write enqueues another read and the machine is told to stop. -/
def demoTurns : List Turn :=
  [.set 0 [7], .get 3 1, .refused, .reported, .retry, .resumed true, .answered [], .getAndCache 0 512,
   .fail, .delivered, .retry, .resumed true, .answered [9], .delivered, .dispose, .answered [1]]

theorem demoTurns_exactly_once :
    ∃ j, run Journal.step Journal.new demoTurns = some j ∧
      Fifo.called j.log = [0, 1] ∧ Fifo.ExactlyOnce j.log := by
  have hrun : (run Journal.step Journal.new demoTurns).map (fun j => Fifo.called j.log)
      = some [0, 1] := by
    decide +kernel
  obtain ⟨j, hj, hcalled⟩ := Option.map_eq_some_iff.mp hrun
  exact ⟨j, hj, hcalled, exactly_once demoTurns j hj⟩

end My98.Web
