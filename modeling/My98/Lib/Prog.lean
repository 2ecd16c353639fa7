/-
  My98.Lib.Prog — programs that run, stop, and keep their state.

  A Rust `async fn` that returns early through `?`, or a JavaScript function that
  throws, ends with a REASON and with whatever it had already done to its state.
  `EStateM ε σ` is exactly that shape: both `ok` and `error` carry a state.  This
  file is the program logic used over it:

    • `wp c Q E s` — running `c` from `s` either returns with `Q` or stops with `E`;
    • one rewriting rule for each way of building a program (`wp_bind`, `wp_throw`,
      `wp_tryCatch`, …), all of them equivalences, so that a goal about a program is
      rewritten into a goal about its parts;
    • `wp_foldlM` — the invariant rule of a `for` loop over a list;
    • `zoom` — a method call on a field of a larger state.

  Nothing here mentions the modelled program.
-/
import Mathlib.Algebra.Order.Ring.Nat
import Mathlib.Tactic.Common

namespace My98.Lib

variable {ε σ τ α β : Type}

/-- Where a chain of fallible calls succeeds, its first call did. -/
theorem ok_of_bind {first : Except ε α} {next : α → Except ε β} {r : β}
    (h : (first >>= next) = .ok r) : ∃ a, first = .ok a ∧ next a = .ok r := by
  cases hf : first with
  | ok a =>
    rw [hf] at h
    exact ⟨a, rfl, h⟩
  | error e =>
    rw [hf] at h
    exact absurd h (by simp [bind, Except.bind])

/-- Where a chain of fallible calls fails, its first call did, or what follows it. -/
theorem error_of_bind {first : Except ε α} {next : α → Except ε β} {e : ε}
    (h : (first >>= next) = .error e) :
    first = .error e ∨ ∃ a, first = .ok a ∧ next a = .error e := by
  cases hf : first with
  | ok a =>
    rw [hf] at h
    exact .inr ⟨a, rfl, h⟩
  | error e' =>
    rw [hf] at h
    obtain rfl : e' = e := Except.error.inj h
    exact .inl rfl

/-! ## §1. Weakest preconditions. -/

/-- Running `c` from `s` either returns, and then `Q` holds of the result and the
    state left behind, or stops, and then `E` holds of the reason and that state. -/
def wp (c : EStateM ε σ α) (Q : α → σ → Prop) (E : ε → σ → Prop) (s : σ) : Prop :=
  match c s with
  | .ok a s' => Q a s'
  | .error e s' => E e s'

theorem wp_of_ok {c : EStateM ε σ α} {Q : α → σ → Prop} {E : ε → σ → Prop} {s s' : σ} {a : α}
    (h : wp c Q E s) (hc : c s = .ok a s') : Q a s' := by
  simpa [wp, hc] using h

theorem wp_of_error {c : EStateM ε σ α} {Q : α → σ → Prop} {E : ε → σ → Prop} {s s' : σ} {e : ε}
    (h : wp c Q E s) (hc : c s = .error e s') : E e s' := by
  simpa [wp, hc] using h

/-- A `wp` goal is a goal about each of the two ways the run can end. -/
theorem wp_intro {c : EStateM ε σ α} {Q : α → σ → Prop} {E : ε → σ → Prop} {s : σ}
    (hok : ∀ a s', c s = .ok a s' → Q a s') (herr : ∀ e s', c s = .error e s' → E e s') :
    wp c Q E s := by
  unfold wp
  cases hc : c s with
  | ok a s' => exact hok a s' hc
  | error e s' => exact herr e s' hc

theorem wp_mono {c : EStateM ε σ α} {Q Q' : α → σ → Prop} {E E' : ε → σ → Prop} {s : σ}
    (h : wp c Q E s) (hQ : ∀ a s', Q a s' → Q' a s') (hE : ∀ e s', E e s' → E' e s') :
    wp c Q' E' s :=
  wp_intro (fun a s' hc => hQ a s' (wp_of_ok h hc)) (fun e s' hc => hE e s' (wp_of_error h hc))

theorem wp_and {c : EStateM ε σ α} {Q Q' : α → σ → Prop} {E E' : ε → σ → Prop} {s : σ}
    (h : wp c Q E s) (h' : wp c Q' E' s) :
    wp c (fun a s' => Q a s' ∧ Q' a s') (fun e s' => E e s' ∧ E' e s') s :=
  wp_intro (fun _ _ hc => ⟨wp_of_ok h hc, wp_of_ok h' hc⟩)
    (fun _ _ hc => ⟨wp_of_error h hc, wp_of_error h' hc⟩)

/-! ## §2. One rule per construct. -/

section Rules

variable {Q : α → σ → Prop} {E : ε → σ → Prop} {s : σ}

theorem get_apply (s : σ) : (get : EStateM ε σ σ) s = .ok s s := rfl

theorem throw_apply (e : ε) (s : σ) : (throw e : EStateM ε σ α) s = .error e s := rfl

@[simp] theorem wp_pure (a : α) : wp (pure a : EStateM ε σ α) Q E s ↔ Q a s := Iff.rfl

@[simp] theorem wp_throw (e : ε) : wp (throw e : EStateM ε σ α) Q E s ↔ E e s := Iff.rfl

@[simp] theorem wp_get {Q : σ → σ → Prop} : wp (get : EStateM ε σ σ) Q E s ↔ Q s s := Iff.rfl

@[simp] theorem wp_set {Q : PUnit → σ → Prop} (s' : σ) :
    wp (set s' : EStateM ε σ PUnit) Q E s ↔ Q ⟨⟩ s' := Iff.rfl

@[simp] theorem wp_modify {Q : PUnit → σ → Prop} (f : σ → σ) :
    wp (modify f : EStateM ε σ PUnit) Q E s ↔ Q ⟨⟩ (f s) := Iff.rfl

@[simp] theorem wp_bind {Q : β → σ → Prop} (c : EStateM ε σ α) (f : α → EStateM ε σ β) :
    wp (c >>= f) Q E s ↔ wp c (fun a s' => wp (f a) Q E s') E s := by
  show (match EStateM.bind c f s with | .ok a s' => Q a s' | .error e s' => E e s') ↔ _
  unfold wp EStateM.bind
  cases c s <;> rfl

@[simp] theorem wp_map {Q : β → σ → Prop} (c : EStateM ε σ α) (f : α → β) :
    wp (f <$> c) Q E s ↔ wp c (fun a s' => Q (f a) s') E s := by
  show (match EStateM.map f c s with | .ok a s' => Q a s' | .error e s' => E e s') ↔ _
  unfold wp EStateM.map
  cases c s <;> rfl

theorem wp_ite {p : Prop} [Decidable p] {c d : EStateM ε σ α} :
    wp (if p then c else d) Q E s ↔ (p → wp c Q E s) ∧ (¬ p → wp d Q E s) := by
  by_cases hp : p <;> simp [hp]

/-- A handler sees the state its body stopped in: nothing is rolled back. -/
@[simp] theorem wp_tryCatch (c : EStateM ε σ α) (h : ε → EStateM ε σ α) :
    wp (tryCatch c h) Q E s ↔ wp c Q (fun e s' => wp (h e) Q E s') s := by
  show (match EStateM.tryCatch c h s with | .ok a s' => Q a s' | .error e s' => E e s') ↔ _
  unfold wp EStateM.tryCatch
  cases c s <;> rfl

end Rules

/-! ## §3. Loops. -/

/-- **The `for` rule.**  `I done acc s` is the invariant once the items `done` have been
    consumed; every item keeps it, and a stop inside the body is a stop of the loop. -/
theorem wp_foldlM {E : ε → σ → Prop} (f : β → α → EStateM ε σ β) (I : List α → β → σ → Prop)
    (xs : List α)
    (hstep : ∀ done x rest acc s, xs = done ++ x :: rest → I done acc s →
      wp (f acc x) (fun acc' s' => I (done ++ [x]) acc' s') E s)
    (acc : β) (s : σ) (h0 : I [] acc s) :
    wp (xs.foldlM f acc) (fun acc' s' => I xs acc' s') E s := by
  suffices key : ∀ rest done acc s, xs = done ++ rest → I done acc s →
      wp (rest.foldlM f acc) (fun acc' s' => I xs acc' s') E s from
    key xs [] acc s rfl h0
  intro rest
  induction rest with
  | nil =>
    intro done acc s hxs hI
    rw [List.append_nil] at hxs
    subst hxs
    exact hI
  | cons x rest ih =>
    intro done acc s hxs hI
    rw [List.foldlM_cons, wp_bind]
    refine wp_mono (hstep done x rest acc s hxs hI) ?_ (fun _ _ h => h)
    intro acc' s' hI'
    exact ih (done ++ [x]) acc' s' (by simp [hxs]) hI'

/-! ## §4. Running on a part of the state. -/

/-- Run `c` on the part of the state that `proj` selects, and put the part it leaves
    back with `put`, whether it returned or stopped. -/
def zoom (proj : σ → τ) (put : τ → σ → σ) (c : EStateM ε τ α) : EStateM ε σ α := fun s =>
  match c (proj s) with
  | .ok a t => .ok a (put t s)
  | .error e t => .error e (put t s)

@[simp] theorem wp_zoom (proj : σ → τ) (put : τ → σ → σ) (c : EStateM ε τ α)
    {Q : α → σ → Prop} {E : ε → σ → Prop} {s : σ} :
    wp (zoom proj put c) Q E s
      ↔ wp c (fun a t => Q a (put t s)) (fun e t => E e (put t s)) (proj s) := by
  unfold wp zoom
  cases c (proj s) <;> rfl

end My98.Lib
