/-
  My98.Lib.Fifo — exactly-once delivery, as a machine and as what its logs say.

  A queue accepts requests, hands them one at a time to a server, and calls each requester back
  with the answer.  `Fifo.step` is the machine that does so in order and exactly once; it is
  stuck from a refusal to the next retry, and closing it is final.  A program whose log is a run
  of this machine delivers exactly once, whatever its own state looks like:

    • `ExactlyOnce log`       — what the machine promises, said of the log alone;
    • `exactlyOnce_of_run`    — every run of the machine keeps it.
-/
import Mathlib.Algebra.Order.Ring.Nat
import Mathlib.Data.List.Induction
import Mathlib.Tactic.Common
import My98.Lib.Machine

namespace My98.Lib.Fifo

variable {α β : Type}

/-! ## §1. The machine. -/

/-- What can be seen of a queue.  The requests are numbered as they are accepted. -/
inductive Entry (α β : Type) where
  | accepted (request : α)
  | issued (number : Nat) (request : α)
  | answered (number : Nat) (result : β)
  | refused (number : Nat)
  | called (number : Nat) (result : β)
  | returned (number : Nat)
  /-- Told to stop. -/
  | failed
  | retried
  | closed
  deriving DecidableEq

/-- Where the first request that is not done is. -/
inductive Stage (β : Type) where
  | queued
  | flying
  | answered (result : β)
  | calling
  deriving DecidableEq

def Stage.isFlying : Stage β → Bool
  | .flying => true
  | _ => false

def Stage.isCalling : Stage β → Bool
  | .calling => true
  | _ => false

structure Queue (α β : Type) where
  accepted : List α
  /-- The requests whose callbacks have returned. -/
  done : Nat
  stage : Stage β
  stuck : Bool
  closed : Bool
  deriving DecidableEq

namespace Queue

def new : Queue α β := { accepted := [], done := 0, stage := .queued, stuck := false, closed := false }

variable [DecidableEq α] [DecidableEq β]

def step (q : Queue α β) : Entry α β → Option (Queue α β)
  | .accepted request =>
    if q.closed = false then some { q with accepted := q.accepted ++ [request] } else none
  | .issued number request =>
    if q.stage = .queued ∧ q.stuck = false ∧ q.closed = false ∧ number = q.done ∧
        q.accepted[number]? = some request then
      some { q with stage := .flying }
    else none
  | .answered number result =>
    if q.stage = .flying ∧ number = q.done then
      some { q with stage := if q.closed then .queued else .answered result }
    else none
  | .refused number =>
    if q.stage = .flying ∧ number = q.done then some { q with stage := .queued, stuck := true }
    else none
  | .called number result =>
    if q.stage = .answered result ∧ number = q.done ∧ q.closed = false then
      some { q with stage := .calling }
    else none
  | .returned number =>
    if q.stage = .calling ∧ number = q.done then
      some { q with stage := .queued, done := q.done + 1 }
    else none
  | .failed => some { q with stuck := true }
  | .retried => some { q with stuck := false }
  | .closed => some { q with closed := true }

end Queue

/-! ## §2. What a log says. -/

/-- The requests that were accepted, in order. -/
def accepted (log : List (Entry α β)) : List α :=
  log.filterMap fun
    | .accepted request => some request
    | _ => none

/-- The requests whose callbacks were called, in order. -/
def called (log : List (Entry α β)) : List Nat :=
  log.filterMap fun
    | .called number _ => some number
    | _ => none

/-- The requests whose callbacks have returned, in order. -/
def returned (log : List (Entry α β)) : List Nat :=
  log.filterMap fun
    | .returned number => some number
    | _ => none

def Entry.isIssue : Entry α β → Bool
  | .issued _ _ => true
  | _ => false

def Entry.isSettling : Entry α β → Bool
  | .answered _ _ => true
  | .refused _ => true
  | _ => false

def Entry.isCall : Entry α β → Bool
  | .called _ _ => true
  | _ => false

section Append

variable (log : List (Entry α β)) (e : Entry α β)

theorem accepted_append : accepted (log ++ [e]) = accepted log ++ accepted [e] :=
  List.filterMap_append

theorem called_append : called (log ++ [e]) = called log ++ called [e] :=
  List.filterMap_append

theorem returned_append : returned (log ++ [e]) = returned log ++ returned [e] :=
  List.filterMap_append

end Append

/-- `between` is what the log says since it issued the request of this number, the last it
    issued. -/
def Since (log : List (Entry α β)) (number : Nat) (between : List (Entry α β)) : Prop :=
  ∃ earlier request, log = earlier ++ .issued number request :: between ∧
    ∀ e ∈ between, e.isIssue = false

/-- **Exactly-once FIFO.** -/
structure ExactlyOnce (log : List (Entry α β)) : Prop where
  /-- At no time is more than one request in flight. -/
  single : ∀ before after, log = before ++ after →
    before.countP Entry.isSettling ≤ before.countP Entry.isIssue ∧
      before.countP Entry.isIssue ≤ before.countP Entry.isSettling + 1
  /-- What is issued is the request as it was accepted, when the callbacks of all earlier ones,
      and of no other, have returned. -/
  issue : ∀ before number request after, log = before ++ .issued number request :: after →
    (accepted before)[number]? = some request ∧ called before = List.range number ∧
      returned before = List.range number
  /-- The callbacks are called once each, in order. -/
  inOrder : called log = List.range (called log).length
  /-- A callback gets the answer to its own request. -/
  own : ∀ before number result after, log = before ++ .called number result :: after →
    ∃ between, Since before number between ∧ .answered number result ∈ between
  /-- After a refusal nothing is issued without a retry, and then the same request again. -/
  refusal : ∀ before number between number' request after,
    log = before ++ .refused number :: (between ++ .issued number' request :: after) →
    (∀ e ∈ between, e.isIssue = false) → number' = number ∧ .retried ∈ between
  /-- After the end nothing is issued and nobody is called. -/
  final : ∀ before after, log = before ++ .closed :: after →
    ∀ e ∈ after, e.isIssue = false ∧ e.isCall = false

/-! ## §3. A run of the machine delivers exactly once. -/

/-- The state of the queue, read off its log. -/
structure Reads (log : List (Entry α β)) (q : Queue α β) : Prop where
  accepted : Fifo.accepted log = q.accepted
  called : Fifo.called log = List.range (q.done + if q.stage.isCalling then 1 else 0)
  returned : Fifo.returned log = List.range q.done
  flying : log.countP Entry.isIssue
    = log.countP Entry.isSettling + if q.stage.isFlying then 1 else 0
  serving : q.stage = .flying → ∃ between, Since log q.done between
  answering : ∀ result, q.stage = .answered result →
    ∃ between, Since log q.done between ∧ .answered q.done result ∈ between

theorem Since.append {log between : List (Entry α β)} {number : Nat} {e : Entry α β}
    (h : Since log number between) (he : e.isIssue = false) :
    Since (log ++ [e]) number (between ++ [e]) := by
  obtain ⟨earlier, request, rfl, hbetween⟩ := h
  refine ⟨earlier, request, by simp, ?_⟩
  intro e' he'
  rcases List.mem_append.mp he' with hold | hnew
  · exact hbetween e' hold
  · rw [List.mem_singleton.mp hnew]
    exact he

theorem Reads.new : Reads ([] : List (Entry α β)) Queue.new where
  accepted := rfl
  called := rfl
  returned := rfl
  flying := rfl
  serving := by
    intro h
    cases h
  answering := by
    intro result h
    cases h

section Runs

variable {log : List (Entry α β)} {q : Queue α β}

/-- What an entry adds to the counts, said of the states before and after it. -/
theorem Reads.onward {q' : Queue α β} {e : Entry α β} (h : Reads log q)
    (ha : q.accepted ++ Fifo.accepted [e] = q'.accepted)
    (hc : List.range (q.done + if q.stage.isCalling then 1 else 0) ++ Fifo.called [e]
      = List.range (q'.done + if q'.stage.isCalling then 1 else 0))
    (hr : List.range q.done ++ Fifo.returned [e] = List.range q'.done)
    (hf : (if q.stage.isFlying then 1 else 0) + [e].countP Entry.isIssue
      = [e].countP Entry.isSettling + if q'.stage.isFlying then 1 else 0)
    (hserving : q'.stage = .flying → ∃ between, Since (log ++ [e]) q'.done between)
    (hanswering : ∀ result, q'.stage = .answered result →
      ∃ between, Since (log ++ [e]) q'.done between ∧ .answered q'.done result ∈ between) :
    Reads (log ++ [e]) q' where
  accepted := by rw [accepted_append, h.accepted, ha]
  called := by rw [called_append, h.called, hc]
  returned := by rw [returned_append, h.returned, hr]
  flying := by
    have hflying := h.flying
    rw [List.countP_append, List.countP_append]
    omega
  serving := hserving
  answering := hanswering

/-- An entry that leaves the first request where it is. -/
theorem Reads.quiet (h : Reads log q) {e : Entry α β} {accepted : List α}
    (ha : q.accepted ++ Fifo.accepted [e] = accepted) (hc : Fifo.called [e] = [])
    (hr : Fifo.returned [e] = []) (hi : e.isIssue = false) (hs : e.isSettling = false)
    (stuck closed : Bool) : Reads (log ++ [e]) { q with accepted, stuck, closed } := by
  apply h.onward ha
  · rw [hc, List.append_nil]
  · rw [hr, List.append_nil]
  · simp [hi, hs]
  · intro hq
    obtain ⟨between, hbetween⟩ := h.serving hq
    exact ⟨_, hbetween.append hi⟩
  · intro result hq
    obtain ⟨between, hbetween, hin⟩ := h.answering result hq
    exact ⟨_, hbetween.append hi, List.mem_append_left _ hin⟩

variable [DecidableEq α] [DecidableEq β] {q' : Queue α β}

/-- **Every step is read off its entry.** -/
theorem Reads.step {e : Entry α β} (h : Reads log q) (hs : q.step e = some q') :
    Reads (log ++ [e]) q' := by
  cases e with
  | accepted request =>
    simp only [Queue.step, Option.ite_none_right_eq_some, Option.some.injEq] at hs
    obtain ⟨-, rfl⟩ := hs
    exact h.quiet rfl rfl rfl rfl rfl q.stuck q.closed
  -- The request that is issued is the one right behind those that were issued before.
  | issued number request =>
    simp only [Queue.step, Option.ite_none_right_eq_some, Option.some.injEq] at hs
    obtain ⟨⟨hstage, -, -, rfl, -⟩, rfl⟩ := hs
    apply h.onward (List.append_nil _)
    · rw [hstage]
      exact List.append_nil _
    · exact List.append_nil _
    · rw [hstage]
      rfl
    · intro _
      refine ⟨[], log, request, rfl, ?_⟩
      intro e he
      cases he
    · intro result hstage'
      cases hstage'
  | answered number result =>
    simp only [Queue.step, Option.ite_none_right_eq_some, Option.some.injEq] at hs
    obtain ⟨⟨hstage, rfl⟩, rfl⟩ := hs
    obtain ⟨between, hbetween⟩ := h.serving hstage
    apply h.onward (List.append_nil _)
    · rw [hstage]
      cases q.closed <;> exact List.append_nil _
    · exact List.append_nil _
    · rw [hstage]
      cases q.closed <;> rfl
    · intro hstage'
      cases hclosed : q.closed <;> simp [hclosed] at hstage'
    · -- the answer stands right behind what came since the issue
      intro result' hstage'
      refine ⟨_, hbetween.append rfl, List.mem_append_right _ ?_⟩
      cases hclosed : q.closed <;> simp [hclosed] at hstage'
      simp [hstage']
  -- A refusal leaves the request where it is, to be issued again.
  | refused number =>
    simp only [Queue.step, Option.ite_none_right_eq_some, Option.some.injEq] at hs
    obtain ⟨⟨hstage, rfl⟩, rfl⟩ := hs
    apply h.onward (List.append_nil _)
    · rw [hstage]
      exact List.append_nil _
    · exact List.append_nil _
    · rw [hstage]
      rfl
    · intro hstage'
      cases hstage'
    · intro result hstage'
      cases hstage'
  -- Its callback is called, with the answer that it was given.
  | called number result =>
    simp only [Queue.step, Option.ite_none_right_eq_some, Option.some.injEq] at hs
    obtain ⟨⟨hstage, rfl, -⟩, rfl⟩ := hs
    apply h.onward (List.append_nil _)
    · rw [hstage]
      exact List.range_succ.symm
    · exact List.append_nil _
    · rw [hstage]
      rfl
    · intro hstage'
      cases hstage'
    · intro result hstage'
      cases hstage'
  | returned number =>
    simp only [Queue.step, Option.ite_none_right_eq_some, Option.some.injEq] at hs
    obtain ⟨⟨hstage, rfl⟩, rfl⟩ := hs
    apply h.onward (List.append_nil _)
    · rw [hstage]
      exact List.append_nil _
    · exact List.range_succ.symm
    · rw [hstage]
      rfl
    · intro hstage'
      cases hstage'
    · intro result hstage'
      cases hstage'
  | failed =>
    obtain rfl := Option.some.inj hs
    exact h.quiet (List.append_nil _) rfl rfl rfl rfl true q.closed
  | retried =>
    obtain rfl := Option.some.inj hs
    exact h.quiet (List.append_nil _) rfl rfl rfl rfl false q.closed
  | closed =>
    obtain rfl := Option.some.inj hs
    exact h.quiet (List.append_nil _) rfl rfl rfl rfl q.stuck true

theorem reads_of_run (hrun : run Queue.step Queue.new log = some q) : Reads log q := by
  induction log using List.reverseRecOn generalizing q with
  | nil =>
    obtain rfl := Option.some.inj hrun
    exact Reads.new
  | append_singleton log e ih =>
    obtain ⟨middle, hlog, he⟩ := run_append hrun
    obtain ⟨q₁, hstep, hend⟩ := run_cons he
    obtain rfl : q₁ = q := Option.some.inj hend
    exact (ih hlog).step hstep

/-- While nothing is issued the queue stays where it is, and stuck until a retry. -/
theorem stuck_of_run (hstage : q.stage = .queued) (hstuck : q.stuck = true)
    (hlog : ∀ e ∈ log, e.isIssue = false) (hrun : run Queue.step q log = some q') :
    q'.stage = .queued ∧ q'.done = q.done ∧ (q'.stuck = true ∨ .retried ∈ log) := by
  suffices hgen : ∀ q : Queue α β, q.stage = .queued → run Queue.step q log = some q' →
      q'.stage = .queued ∧ q'.done = q.done ∧ (q'.stuck = q.stuck ∨ q'.stuck = true ∨
        .retried ∈ log) by
    obtain ⟨h1, h2, h3⟩ := hgen q hstage hrun
    rw [hstuck] at h3
    exact ⟨h1, h2, by tauto⟩
  clear hstage hstuck hrun
  induction log with
  | nil =>
    intro q hstage hrun
    obtain rfl := Option.some.inj hrun
    exact ⟨hstage, rfl, .inl rfl⟩
  | cons e rest ih =>
    intro q hstage hrun
    obtain ⟨q₁, hs, hrest⟩ := run_cons hrun
    have hissue := hlog e List.mem_cons_self
    have hkeep : q₁.stage = .queued ∧ q₁.done = q.done ∧
        (q₁.stuck = q.stuck ∨ q₁.stuck = true ∨ e = .retried) := by
      cases e <;> simp [Queue.step, hstage, Entry.isIssue] at hs hissue ⊢ <;> grind
    obtain ⟨h1, h2, h3⟩ := ih (fun e' he' => hlog e' (List.mem_cons_of_mem _ he')) q₁ hkeep.1 hrest
    refine ⟨h1, h2.trans hkeep.2.1, ?_⟩
    rcases h3 with h3 | h3 | h3
    · rcases hkeep.2.2 with h4 | h4 | rfl
      · left
        exact h3.trans h4
      · right
        left
        exact h3.trans h4
      · right
        right
        exact List.mem_cons_self
    · right
      left
      exact h3
    · right
      right
      exact List.mem_cons_of_mem _ h3

/-- Once closed, the queue issues nothing and calls nobody. -/
theorem closed_of_run (hclosed : q.closed = true) (hrun : run Queue.step q log = some q') :
    ∀ e ∈ log, e.isIssue = false ∧ e.isCall = false := by
  induction log generalizing q with
  | nil =>
    intro e he
    cases he
  | cons e rest ih =>
    obtain ⟨q₁, hs, hrest⟩ := run_cons hrun
    have hkeep : q₁.closed = true ∧ e.isIssue = false ∧ e.isCall = false := by
      cases e <;> simp [Queue.step, hclosed, Entry.isIssue, Entry.isCall] at hs ⊢ <;> grind
    intro e' he'
    rcases List.mem_cons.mp he' with rfl | hin
    · exact hkeep.2
    · exact ih hkeep.1 hrest e' hin

/-- **Every run of the machine delivers exactly once.** -/
theorem exactlyOnce_of_run (hrun : run Queue.step Queue.new log = some q) : ExactlyOnce log where
  single := by
    rintro before after rfl
    obtain ⟨middle, hbefore, -⟩ := run_append hrun
    have hflying := (reads_of_run hbefore).flying
    split at hflying <;> omega
  issue := by
    rintro before number request after rfl
    obtain ⟨middle, hbefore, hrest⟩ := run_append hrun
    obtain ⟨q₁, hs, -⟩ := run_cons hrest
    simp only [Queue.step, Option.ite_none_right_eq_some] at hs
    obtain ⟨⟨hstage, -, -, rfl, hrequest⟩, -⟩ := hs
    have hreads := reads_of_run hbefore
    have hcalled := hreads.called
    rw [hstage] at hcalled
    exact ⟨hreads.accepted ▸ hrequest, hcalled, hreads.returned⟩
  inOrder := by
    rw [(reads_of_run hrun).called, List.length_range]
  own := by
    rintro before number result after rfl
    obtain ⟨middle, hbefore, hrest⟩ := run_append hrun
    obtain ⟨q₁, hs, -⟩ := run_cons hrest
    simp only [Queue.step, Option.ite_none_right_eq_some] at hs
    obtain ⟨⟨hstage, rfl, -⟩, -⟩ := hs
    exact (reads_of_run hbefore).answering result hstage
  refusal := by
    rintro before number between number' request after rfl hbetween
    obtain ⟨middle, -, hrest⟩ := run_append hrun
    obtain ⟨q₁, hs, hrest⟩ := run_cons hrest
    obtain ⟨q₂, hstill, hrest⟩ := run_append hrest
    obtain ⟨q₃, hissue, -⟩ := run_cons hrest
    simp only [Queue.step, Option.ite_none_right_eq_some, Option.some.injEq] at hs hissue
    obtain ⟨⟨-, rfl⟩, rfl⟩ := hs
    obtain ⟨⟨-, hfree, -, rfl, -⟩, -⟩ := hissue
    obtain ⟨-, hdone, hretried⟩ := stuck_of_run rfl rfl hbetween hstill
    rw [hfree] at hretried
    exact ⟨hdone, by simpa using hretried⟩
  final := by
    rintro before after rfl
    obtain ⟨middle, -, hrest⟩ := run_append hrun
    obtain ⟨q₁, hs, hrest⟩ := run_cons hrest
    obtain rfl := Option.some.inj hs
    exact closed_of_run rfl hrest

end Runs

end My98.Lib.Fifo
