/-
  My98.Lib.Chains — the cheapest chain of disjoint intervals, one interval at a time.

  A chain below `n` is a list of disjoint index intervals `[i, j)`, the last one first, each of
  which is allowed.  What it costs is the sum of what its intervals cost.  The best of at most
  `k + 1` intervals below `n + 1` either ends before `n` or is one interval ending at `n + 1`
  behind the best of at most `k` intervals:

    • `isBest_skip`, `isBest_take` — the two cases, for any allowed intervals and any costs in an
      ordered group;
    • `isBest_unique`              — the best cost is one number.
-/
import Mathlib.Algebra.Order.Group.Defs
import Mathlib.Algebra.BigOperators.Group.List.Basic
import Mathlib.Tactic.Common
import Mathlib.Tactic.Abel

namespace My98.Lib.Chains

variable {M : Type} [AddCommGroup M]
variable {ok : ℕ → ℕ → Prop} {cost : ℕ → ℕ → M}

/-! ## §1. Chains. -/

/-- Disjoint allowed intervals below `n`, the last one first. -/
def Chain (ok : ℕ → ℕ → Prop) : ℕ → List (ℕ × ℕ) → Prop
  | _, [] => True
  | n, r :: rest => r.1 < r.2 ∧ r.2 ≤ n ∧ ok r.1 r.2 ∧ Chain ok r.1 rest

def total (cost : ℕ → ℕ → M) (c : List (ℕ × ℕ)) : M :=
  (c.map fun r => cost r.1 r.2).sum

@[simp] theorem total_nil : total cost [] = 0 := rfl

@[simp] theorem total_cons (r : ℕ × ℕ) (c : List (ℕ × ℕ)) :
    total cost (r :: c) = cost r.1 r.2 + total cost c := by
  simp [total]

theorem Chain.mono {n m : ℕ} {c : List (ℕ × ℕ)} (h : Chain ok n c) (hnm : n ≤ m) :
    Chain ok m c := by
  cases c with
  | nil => trivial
  | cons r rest => exact ⟨h.1, h.2.1.trans hnm, h.2.2⟩

theorem Chain.nil_of_zero {c : List (ℕ × ℕ)} (h : Chain ok 0 c) : c = [] := by
  cases c with
  | nil => rfl
  | cons r rest =>
    have hlt := h.1
    have hle := h.2.1
    omega

/-- A chain below `n + 1` ends before `n`, or with an interval that ends there. -/
theorem Chain.last {n : ℕ} {c : List (ℕ × ℕ)} (h : Chain ok (n + 1) c) :
    Chain ok n c ∨
      ∃ i rest, c = (i, n + 1) :: rest ∧ i ≤ n ∧ ok i (n + 1) ∧ Chain ok i rest := by
  cases c with
  | nil => exact .inl trivial
  | cons r rest =>
    obtain ⟨i, j⟩ := r
    obtain ⟨hlt, hle, hok, hrest⟩ := h
    dsimp only at hlt hle hok hrest
    by_cases hj : j = n + 1
    · subst hj
      exact .inr ⟨i, rest, rfl, by omega, hok, hrest⟩
    · exact .inl ⟨hlt, by omega, hok, hrest⟩

/-! ## §2. The best cost. -/

variable [LinearOrder M]

/-- `v` is what the cheapest chain of at most `k` intervals below `n` costs. -/
structure IsBest (ok : ℕ → ℕ → Prop) (cost : ℕ → ℕ → M) (k n : ℕ) (v : M) : Prop where
  met : ∃ c, Chain ok n c ∧ c.length ≤ k ∧ total cost c = v
  least : ∀ c, Chain ok n c → c.length ≤ k → v ≤ total cost c

theorem isBest_none (n : ℕ) : IsBest ok cost 0 n 0 where
  met := ⟨[], trivial, le_rfl, rfl⟩
  least := by
    intro c _ hlen
    rw [List.length_eq_zero_iff.mp (Nat.le_zero.mp hlen)]
    exact le_rfl

theorem isBest_start (k : ℕ) : IsBest ok cost k 0 0 where
  met := ⟨[], trivial, Nat.zero_le k, rfl⟩
  least := by
    intro c hc _
    rw [hc.nil_of_zero]
    exact le_rfl

theorem isBest_unique {k n : ℕ} {v w : M} (hv : IsBest ok cost k n v) (hw : IsBest ok cost k n w) :
    v = w := by
  obtain ⟨c, hc, hlen, rfl⟩ := hv.met
  obtain ⟨d, hd, hlen', rfl⟩ := hw.met
  exact le_antisymm (hv.least d hd hlen') (hw.least c hc hlen)

section Steps

variable [IsOrderedAddMonoid M]

/-- Where every interval that ends at `n + 1` is no better than what is had already, nothing
changes. -/
theorem isBest_skip {k n : ℕ} {u : M} {v : ℕ → M} (hu : IsBest ok cost (k + 1) n u)
    (hv : ∀ i ≤ n, IsBest ok cost k i (v i))
    (hno : ∀ i ≤ n, ok i (n + 1) → u ≤ v i + cost i (n + 1)) :
    IsBest ok cost (k + 1) (n + 1) u where
  met := by
    obtain ⟨c, hc, hlen, htotal⟩ := hu.met
    exact ⟨c, hc.mono (Nat.le_succ n), hlen, htotal⟩
  least := by
    intro c hc hlen
    obtain hbefore | ⟨i, rest, rfl, hi, hok, hrest⟩ := hc.last
    · exact hu.least c hbefore hlen
    · have hle := (hv i hi).least rest hrest (Nat.le_of_succ_le_succ hlen)
      calc u ≤ v i + cost i (n + 1) := hno i hi hok
        _ ≤ total cost rest + cost i (n + 1) := by gcongr
        _ = total cost ((i, n + 1) :: rest) := by rw [total_cons, add_comm]

/-- Where the interval from `s` is the best that ends at `n + 1`, and better than what is had
already, it is taken. -/
theorem isBest_take {k n s : ℕ} {u : M} {v : ℕ → M} (hu : IsBest ok cost (k + 1) n u)
    (hv : ∀ i ≤ n, IsBest ok cost k i (v i)) (hs : s ≤ n) (hok : ok s (n + 1))
    (hbest : ∀ i ≤ n, ok i (n + 1) → v s + cost s (n + 1) ≤ v i + cost i (n + 1))
    (hbetter : v s + cost s (n + 1) ≤ u) :
    IsBest ok cost (k + 1) (n + 1) (v s + cost s (n + 1)) where
  met := by
    obtain ⟨c, hc, hlen, htotal⟩ := (hv s hs).met
    refine ⟨(s, n + 1) :: c, ⟨Nat.lt_succ_of_le hs, le_rfl, hok, hc⟩, Nat.succ_le_succ hlen, ?_⟩
    rw [total_cons, htotal, add_comm]
  least := by
    intro c hc hlen
    obtain hbefore | ⟨i, rest, rfl, hi, hok', hrest⟩ := hc.last
    · exact hbetter.trans (hu.least c hbefore hlen)
    · have hle := (hv i hi).least rest hrest (Nat.le_of_succ_le_succ hlen)
      calc v s + cost s (n + 1) ≤ v i + cost i (n + 1) := hbest i hi hok'
        _ ≤ total cost rest + cost i (n + 1) := by gcongr
        _ = total cost ((i, n + 1) :: rest) := by rw [total_cons, add_comm]

end Steps

/-! ## §3. Reading the chain back. -/

/-- What a layer recorded at each end: no interval, or where the one it took starts. -/
structure Recorded (ok : ℕ → ℕ → Prop) (cost : ℕ → ℕ → M) (before after : ℕ → M)
    (pick : ℕ → Option ℕ) (n : ℕ) : Prop where
  skipped : ∀ j < n, pick (j + 1) = none → after (j + 1) = after j
  taken : ∀ j < n, ∀ s, pick (j + 1) = some s →
    s ≤ j ∧ ok s (j + 1) ∧ after (j + 1) = before s + cost s (j + 1)

omit [LinearOrder M] in
/-- One more end. -/
theorem Recorded.extend {before after after' : ℕ → M} {pick pick' : ℕ → Option ℕ} {n : ℕ}
    (h : Recorded ok cost before after pick n) (hafter : ∀ j ≤ n, after' j = after j)
    (hpick : ∀ j ≤ n, pick' j = pick j) (hskip : pick' (n + 1) = none → after' (n + 1) = after n)
    (htake : ∀ s, pick' (n + 1) = some s →
      s ≤ n ∧ ok s (n + 1) ∧ after' (n + 1) = before s + cost s (n + 1)) :
    Recorded ok cost before after' pick' (n + 1) where
  skipped := by
    intro j hj hnone
    rw [hafter j (by omega)]
    obtain rfl | hlt := Nat.eq_or_lt_of_le (Nat.le_of_lt_succ hj)
    · exact hskip hnone
    · rw [hafter (j + 1) hlt]
      exact h.skipped j hlt ((hpick (j + 1) hlt).symm.trans hnone)
  taken := by
    intro j hj s hsome
    obtain rfl | hlt := Nat.eq_or_lt_of_le (Nat.le_of_lt_succ hj)
    · exact htake s hsome
    · rw [hafter (j + 1) hlt]
      exact h.taken j hlt s ((hpick (j + 1) hlt).symm.trans hsome)

end My98.Lib.Chains
