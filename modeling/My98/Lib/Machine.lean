/-
  My98.Lib.Machine — runs of a state machine.

  A machine is a partial step function: `step s e` is the state after event `e`, or `none`
  when `e` cannot happen in `s`.  Everything an environment may choose (which message arrives,
  whether a call fails, who moves next) is part of the event, so ONE list of events is one
  run, and "for every run" is "for every list".

    • `run step s events`         — the state at the end, if the run is possible;
    • `Throughout step ok s events` — every step of the run meets the condition `ok`, which may
      look at the state before the step;
    • `run_invariant`             — the induction, done once;
    • `run_history`               — and once more for what is said of the events so far.
-/
import Mathlib.Algebra.Order.Ring.Nat
import Mathlib.Tactic.Common

namespace My98.Lib

variable {S E : Type}

/-- Follow the events in order. -/
def run (step : S → E → Option S) : S → List E → Option S
  | s, [] => some s
  | s, e :: rest =>
    match step s e with
    | none => none
    | some s' => run step s' rest

/-- Every step of the run from `s` meets `ok` in the state it starts from. -/
def Throughout (step : S → E → Option S) (ok : S → E → Prop) : S → List E → Prop
  | _, [] => True
  | s, e :: rest => ok s e ∧ ∀ s', step s e = some s' → Throughout step ok s' rest

section Runs

variable {step : S → E → Option S}

theorem run_cons {s s' : S} {e : E} {rest : List E} (h : run step s (e :: rest) = some s') :
    ∃ s₁, step s e = some s₁ ∧ run step s₁ rest = some s' := by
  unfold run at h
  cases hs : step s e with
  | none =>
    rw [hs] at h
    cases h
  | some s₁ =>
    rw [hs] at h
    exact ⟨s₁, rfl, h⟩

/-- A run in two parts. -/
theorem run_append {s s' : S} {first second : List E}
    (h : run step s (first ++ second) = some s') :
    ∃ middle, run step s first = some middle ∧ run step middle second = some s' := by
  induction first generalizing s with
  | nil => exact ⟨s, rfl, h⟩
  | cons e rest ih =>
    obtain ⟨s₁, hs, hrest⟩ := run_cons h
    obtain ⟨middle, hmiddle, hsecond⟩ := ih hrest
    refine ⟨middle, ?_, hsecond⟩
    show (match step s e with
      | none => none
      | some s₂ => run step s₂ rest) = some middle
    rw [hs]
    exact hmiddle

/-- One more event at the end. -/
theorem run_snoc {s middle : S} {events : List E} {e : E}
    (h : run step s events = some middle) : run step s (events ++ [e]) = step middle e := by
  induction events generalizing s with
  | nil =>
    obtain rfl : s = middle := Option.some.inj h
    show (match step s e with
      | none => none
      | some s₁ => some s₁) = step s e
    cases step s e <;> rfl
  | cons e' rest ih =>
    obtain ⟨s₁, hs, hrest⟩ := run_cons h
    show (match step s e' with
      | none => none
      | some s₂ => run step s₂ (rest ++ [e])) = step middle e
    rw [hs]
    exact ih hrest

/-- A run that is possible ends in the state it computes. -/
theorem run_getD {s : S} {events : List E} (h : (run step s events).isSome = true) :
    run step s events = some ((run step s events).getD s) := by
  obtain ⟨s', hs'⟩ := Option.isSome_iff_exists.mp h
  rw [hs']
  rfl

theorem throughout_cons_some {ok : S → E → Prop} {s s' : S} {e : E} {rest : List E}
    (h : step s e = some s') :
    Throughout step ok s (e :: rest) ↔ ok s e ∧ Throughout step ok s' rest := by
  show (ok s e ∧ ∀ s₁, step s e = some s₁ → Throughout step ok s₁ rest) ↔ _
  rw [h]
  constructor
  · intro hall
    exact ⟨hall.1, hall.2 s' rfl⟩
  · intro hall
    refine ⟨hall.1, ?_⟩
    intro s₁ hs₁
    obtain rfl : s' = s₁ := Option.some.inj hs₁
    exact hall.2

theorem throughout_cons_none {ok : S → E → Prop} {s : S} {e : E} {rest : List E}
    (h : step s e = none) : Throughout step ok s (e :: rest) ↔ ok s e := by
  show (ok s e ∧ ∀ s₁, step s e = some s₁ → Throughout step ok s₁ rest) ↔ _
  rw [h]
  constructor
  · intro hall
    exact hall.1
  · intro hok
    refine ⟨hok, ?_⟩
    intro s₁ hs₁
    cases hs₁

/-- A stronger condition may be put in the place of a weaker one. -/
theorem throughout_mono {ok ok' : S → E → Prop} (h : ∀ s e, ok s e → ok' s e) {s : S}
    {events : List E} (hall : Throughout step ok s events) : Throughout step ok' s events := by
  induction events generalizing s with
  | nil => exact trivial
  | cons e rest ih => exact ⟨h s e hall.1, fun s' hs => ih (hall.2 s' hs)⟩

/-- A condition that always holds, holds along every run. -/
theorem throughout_of_forall {ok : S → E → Prop} (h : ∀ s e, ok s e) (s : S) (events : List E) :
    Throughout step ok s events := by
  induction events generalizing s with
  | nil => exact trivial
  | cons e rest ih => exact ⟨h s e, fun s' _ => ih s'⟩

/-- A condition on the events alone. -/
theorem throughout_of_mem {ok : S → E → Prop} {events : List E} (h : ∀ e ∈ events, ∀ s, ok s e)
    (s : S) : Throughout step ok s events := by
  induction events generalizing s with
  | nil => exact trivial
  | cons e rest ih =>
    refine ⟨h e List.mem_cons_self s, ?_⟩
    intro s' _
    exact ih (fun e' he' => h e' (List.mem_cons_of_mem _ he')) s'

/-- A condition that can be evaluated, can be evaluated along a run. -/
instance decidableThroughout {ok : S → E → Prop} [inst : ∀ s e, Decidable (ok s e)] :
    ∀ (s : S) (events : List E), Decidable (Throughout step ok s events)
  | _, [] => isTrue trivial
  | s, e :: rest =>
    match hs : step s e with
    | none => decidable_of_iff _ (throughout_cons_none hs).symm
    | some s₁ =>
      @decidable_of_iff _ _ (throughout_cons_some hs).symm
        (@instDecidableAnd _ _ (inst s e) (decidableThroughout s₁ rest))

/-- **The invariant rule.**  What every permitted step preserves, every permitted run
    preserves. -/
theorem run_invariant {ok : S → E → Prop} {I : S → Prop}
    (hstep : ∀ s e s', I s → ok s e → step s e = some s' → I s') (events : List E) :
    ∀ s s', I s → Throughout step ok s events → run step s events = some s' → I s' := by
  induction events with
  | nil =>
    intro s s' hI _ hrun
    obtain rfl : s = s' := Option.some.inj hrun
    exact hI
  | cons e rest ih =>
    intro s s' hI hok hrun
    obtain ⟨s₁, hs, hrest⟩ := run_cons hrun
    exact ih s₁ s' (hstep s e s₁ hI hok.1 hs) (hok.2 s₁ hs) hrest

/-- What every step preserves, every run preserves. -/
theorem run_keeps {I : S → Prop} (hstep : ∀ s e s', I s → step s e = some s' → I s')
    (events : List E) (s s' : S) (hI : I s) (hrun : run step s events = some s') : I s' :=
  run_invariant (fun s e s' h _ => hstep s e s' h) events s s' hI
    (throughout_of_forall (fun _ _ => trivial) s events) hrun

/-- What every step preserves of a state AND the events that led to it, holds after every run. -/
theorem run_history {P : S → List E → Prop} {s : S} (hstart : P s [])
    (hstep : ∀ s past e s', P s past → step s e = some s' → P s' (past ++ [e])) (events : List E) :
    ∀ s', run step s events = some s' → P s' events := by
  have hrest : ∀ (rest past : List E) (s s' : S), P s past → run step s rest = some s' →
      P s' (past ++ rest) := by
    intro rest
    induction rest with
    | nil =>
      intro past s s' h hrun
      obtain rfl : s = s' := Option.some.inj hrun
      rwa [List.append_nil]
    | cons e rest ih =>
      intro past s s' h hrun
      obtain ⟨s₁, hs, hafter⟩ := run_cons hrun
      have hone := ih (past ++ [e]) s₁ s' (hstep s past e s₁ h hs) hafter
      rwa [List.append_assoc] at hone
  exact fun s' hrun => hrest events [] s s' hstart hrun

end Runs

end My98.Lib
