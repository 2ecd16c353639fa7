/-
  My98.Lib.Intervals — merging intervals of integers.

  A list of closed intervals, sorted by their first point, is merged from the left: an interval
  that overlaps or TOUCHES the last one extends it, any other starts a new one.  What is summed
  over the merged intervals is summed over the points covered, each once, however the intervals
  overlapped.

    • `sum_mergeIntervals`     — the sum over the merged intervals is the sum over the points covered;
    • `mergeIntervals_bounds`  — a merged interval ends where one of the intervals does;
    • `insertionSort_in_order` — intervals that are apart, put in order;
    • `sum_length_le`          — and the room they take up;
    • `sum_telescope`          — differences summed over an interval.

  Nothing here mentions the modelled program.
-/
import Mathlib

namespace My98.Lib

/-! ## §1. Points. -/

/-- The points of a closed interval. -/
noncomputable def pointsOf (x : ℤ × ℤ) : Finset ℤ := Finset.Icc x.1 x.2

/-- The points of a list of intervals. -/
noncomputable def coveredBy (xs : List (ℤ × ℤ)) : Finset ℤ := xs.foldr (fun x s => pointsOf x ∪ s) ∅

theorem mem_pointsOf {x : ℤ × ℤ} {i : ℤ} : i ∈ pointsOf x ↔ x.1 ≤ i ∧ i ≤ x.2 := Finset.mem_Icc

theorem mem_coveredBy {xs : List (ℤ × ℤ)} {i : ℤ} :
    i ∈ coveredBy xs ↔ ∃ x ∈ xs, i ∈ pointsOf x := by
  induction xs with
  | nil => simp [coveredBy]
  | cons x xs ih =>
    show i ∈ pointsOf x ∪ coveredBy xs ↔ _
    rw [Finset.mem_union, ih]
    simp

/-- The order of the intervals does not matter. -/
theorem coveredBy_perm {xs ys : List (ℤ × ℤ)} (h : xs.Perm ys) : coveredBy xs = coveredBy ys := by
  ext i
  rw [mem_coveredBy, mem_coveredBy]
  simp only [h.mem_iff]

/-- Intervals that are apart, sorted by where they start, are in order. -/
theorem insertionSort_in_order {before : ℤ × ℤ → ℤ × ℤ → Prop} [DecidableRel before]
    [Std.Total before] [IsTrans (ℤ × ℤ) before] (hfirst : ∀ a b, before a b → a.1 ≤ b.1)
    {xs : List (ℤ × ℤ)} (hproper : ∀ x ∈ xs, x.1 ≤ x.2)
    (hapart : xs.Pairwise fun a b => a.2 < b.1 ∨ b.2 < a.1) :
    (xs.insertionSort before).Pairwise fun a b => a.2 < b.1 := by
  have hperm := List.perm_insertionSort before xs
  have hsorted := List.pairwise_insertionSort before xs
  have hboth := hsorted.and (hperm.symm.pairwise hapart fun h => Or.symm h)
  refine hboth.imp_of_mem fun {a b} _ hb hab => hab.2.resolve_right fun hlt => ?_
  have := hproper b (hperm.mem_iff.mp hb)
  exact absurd (hfirst a b hab.1) (by omega)

/-- Intervals that are apart are as long as they have points. -/
theorem sum_length_eq {xs : List (ℤ × ℤ)} (hproper : ∀ x ∈ xs, x.1 ≤ x.2)
    (hapart : xs.Pairwise fun a b => a.2 < b.1 ∨ b.2 < a.1) :
    (xs.map fun x => x.2 - x.1 + 1).sum = ((coveredBy xs).card : ℤ) := by
  induction xs with
  | nil => rfl
  | cons x xs ih =>
    obtain ⟨hx, hxs⟩ := List.pairwise_cons.mp hapart
    have hdisjoint : Disjoint (pointsOf x) (coveredBy xs) := by
      rw [Finset.disjoint_left]
      intro i hi hi'
      obtain ⟨y, hy, hiy⟩ := mem_coveredBy.mp hi'
      rw [mem_pointsOf] at hi hiy
      have := hx y hy
      omega
    have hle := hproper x List.mem_cons_self
    rw [List.map_cons, List.sum_cons, ih (fun y hy => hproper y (List.mem_cons_of_mem _ hy)) hxs]
    show x.2 - x.1 + 1 + ((coveredBy xs).card : ℤ) = ((pointsOf x ∪ coveredBy xs).card : ℤ)
    rw [Finset.card_union_of_disjoint hdisjoint, pointsOf, Int.card_Icc]
    omega

/-- **Intervals that are apart take up no more room than there is.** -/
theorem sum_length_le {lo hi : ℤ} (hle : lo ≤ hi) {xs : List (ℤ × ℤ)}
    (hproper : ∀ x ∈ xs, x.1 ≤ x.2) (hin : ∀ x ∈ xs, lo ≤ x.1 ∧ x.2 < hi)
    (hapart : xs.Pairwise fun a b => a.2 < b.1 ∨ b.2 < a.1) :
    (xs.map fun x => x.2 - x.1 + 1).sum ≤ hi - lo := by
  rw [sum_length_eq hproper hapart]
  have hsub : coveredBy xs ⊆ Finset.Ico lo hi := by
    intro i hi
    obtain ⟨x, hx, hix⟩ := mem_coveredBy.mp hi
    rw [mem_pointsOf] at hix
    have := hin x hx
    rw [Finset.mem_Ico]
    omega
  have hcount := Finset.card_le_card hsub
  rw [Int.card_Ico] at hcount
  omega

/-! ## §2. Merging. -/

/-- Take in one more interval; the last one stands first in the list. -/
def mergeInto (merged : List (ℤ × ℤ)) (x : ℤ × ℤ) : List (ℤ × ℤ) :=
  match merged with
  | [] => [x]
  | last :: rest =>
    if x.1 ≤ last.2 + 1 then (last.1, max last.2 x.2) :: rest else x :: last :: rest

def mergeIntervals (xs : List (ℤ × ℤ)) : List (ℤ × ℤ) := (xs.foldl mergeInto []).reverse

/-- The bounds of a merged interval are bounds of intervals. -/
theorem foldl_mergeInto_bounds {p q : ℤ → Prop} : ∀ {xs merged : List (ℤ × ℤ)},
    (∀ x ∈ merged, p x.1 ∧ q x.2 ∧ x.1 ≤ x.2) → (∀ x ∈ xs, p x.1 ∧ q x.2 ∧ x.1 ≤ x.2) →
    ∀ x ∈ xs.foldl mergeInto merged, p x.1 ∧ q x.2 ∧ x.1 ≤ x.2 := by
  intro xs
  induction xs with
  | nil =>
    intro merged hmerged _
    exact hmerged
  | cons y ys ih =>
    intro merged hmerged hxs
    refine ih (fun x hx => ?_) fun x hx => hxs x (List.mem_cons_of_mem _ hx)
    have hy := hxs y List.mem_cons_self
    cases merged with
    | nil =>
      obtain rfl := List.mem_singleton.mp hx
      exact hy
    | cons last rest =>
      have hlast := hmerged last List.mem_cons_self
      unfold mergeInto at hx
      dsimp only at hx
      split at hx
      · rcases List.mem_cons.mp hx with rfl | hx
        · refine ⟨hlast.1, ?_, le_trans hlast.2.2 (le_max_left _ _)⟩
          rcases max_choice last.2 y.2 with h | h
          · rw [h]
            exact hlast.2.1
          · rw [h]
            exact hy.2.1
        · exact hmerged x (List.mem_cons_of_mem _ hx)
      · rcases List.mem_cons.mp hx with rfl | hx
        · exact hy
        · exact hmerged x hx

theorem mergeIntervals_bounds {p q : ℤ → Prop} {xs : List (ℤ × ℤ)}
    (h : ∀ x ∈ xs, p x.1 ∧ q x.2 ∧ x.1 ≤ x.2) : ∀ x ∈ mergeIntervals xs, p x.1 ∧ q x.2 ∧ x.1 ≤ x.2 := by
  intro x hx
  refine foldl_mergeInto_bounds (fun y hy => ?_) h x (List.mem_reverse.mp hx)
  cases hy

section Sums

variable {M : Type*} [AddCommMonoid M] (f : ℤ → M)

/-- The sum over each interval of a list. -/
noncomputable def sumOver (xs : List (ℤ × ℤ)) : M := (xs.map fun x => ∑ i ∈ pointsOf x, f i).sum

/-- What holds of the intervals merged so far: they sum to what was seen, and the last one holds
    the greatest point, starting no later than `bound`. -/
structure MergedSoFar (merged : List (ℤ × ℤ)) (seen : Finset ℤ) (bound : ℤ) : Prop where
  sum : sumOver f merged = ∑ i ∈ seen, f i
  none : merged = [] → seen = ∅
  last : ∀ last rest, merged = last :: rest →
    last.1 ≤ bound ∧ pointsOf last ⊆ seen ∧ ∀ i ∈ seen, i ≤ last.2

variable {f}

/-- The last interval, extended to the right. -/
theorem pointsOf_extend {last x : ℤ × ℤ} {seen : Finset ℤ} (hsub : pointsOf last ⊆ seen)
    (hfirst : last.1 ≤ x.1) (htouch : x.1 ≤ last.2 + 1) :
    pointsOf x ∪ seen = seen ∪ Finset.Icc (last.2 + 1) x.2 ∧
      pointsOf (last.1, max last.2 x.2) = pointsOf last ∪ Finset.Icc (last.2 + 1) x.2 := by
  constructor
  · ext i
    rw [Finset.mem_union, Finset.mem_union, mem_pointsOf, Finset.mem_Icc]
    constructor
    · rintro (⟨hlow, hhigh⟩ | h)
      · by_cases hi : i ≤ last.2
        · exact .inl (hsub (mem_pointsOf.mpr ⟨hfirst.trans hlow, hi⟩))
        · exact .inr ⟨by omega, hhigh⟩
      · exact .inl h
    · rintro (h | ⟨hlow, hhigh⟩)
      · exact .inr h
      · exact .inl ⟨by omega, hhigh⟩
  · ext i
    rw [Finset.mem_union, mem_pointsOf, mem_pointsOf, Finset.mem_Icc]
    dsimp only
    omega

/-- **One more interval** is summed once, where it reaches beyond what was seen. -/
theorem MergedSoFar.step {merged : List (ℤ × ℤ)} {seen : Finset ℤ} {bound : ℤ} {x : ℤ × ℤ}
    (h : MergedSoFar f merged seen bound) (hx : x.1 ≤ x.2) (hbound : bound ≤ x.1) :
    MergedSoFar f (mergeInto merged x) (pointsOf x ∪ seen) x.1 := by
  cases merged with
  | nil =>
    rw [h.none rfl, Finset.union_empty]
    refine ⟨by simp [mergeInto, sumOver], fun h => absurd h (List.cons_ne_nil _ _), ?_⟩
    rintro last rest heq
    obtain ⟨rfl, -⟩ := List.cons.inj heq
    exact ⟨le_rfl, subset_rfl, fun i hi => (mem_pointsOf.mp hi).2⟩
  | cons last rest =>
    obtain ⟨hlow, hsub, hle⟩ := h.last last rest rfl
    have hsum : (∑ i ∈ pointsOf last, f i) + sumOver f rest = ∑ i ∈ seen, f i := h.sum
    unfold mergeInto
    dsimp only
    split
    next htouch =>
      obtain ⟨hseen, hpoints⟩ := pointsOf_extend hsub (hlow.trans hbound) htouch
      have hnew : Disjoint seen (Finset.Icc (last.2 + 1) x.2) := by
        rw [Finset.disjoint_left]
        intro i hi hi'
        have := hle i hi
        have := (Finset.mem_Icc.mp hi').1
        omega
      refine ⟨?_, fun h => absurd h (List.cons_ne_nil _ _), ?_⟩
      · show (∑ i ∈ pointsOf (last.1, max last.2 x.2), f i) + sumOver f rest = _
        rw [hseen, hpoints, Finset.sum_union (hnew.mono_left hsub), Finset.sum_union hnew, ← hsum]
        abel
      · rintro last' rest' heq
        obtain ⟨rfl, -⟩ := List.cons.inj heq
        refine ⟨hlow.trans hbound, ?_, ?_⟩
        · rw [hseen, hpoints]
          exact Finset.union_subset_union_left hsub
        · intro i hi
          rcases Finset.mem_union.mp hi with hi | hi
          · exact (mem_pointsOf.mp hi).2.trans (le_max_right _ _)
          · exact (hle i hi).trans (le_max_left _ _)
    next hapart =>
      have hnew : Disjoint (pointsOf x) seen := by
        rw [Finset.disjoint_left]
        intro i hi hi'
        have := hle i hi'
        have := (mem_pointsOf.mp hi).1
        omega
      refine ⟨?_, fun h => absurd h (List.cons_ne_nil _ _), ?_⟩
      · show (∑ i ∈ pointsOf x, f i) + ((∑ i ∈ pointsOf last, f i) + sumOver f rest) = _
        rw [Finset.sum_union hnew, hsum]
      · rintro last' rest' heq
        obtain ⟨rfl, -⟩ := List.cons.inj heq
        refine ⟨le_rfl, Finset.subset_union_left, ?_⟩
        intro i hi
        rcases Finset.mem_union.mp hi with hi | hi
        · exact (mem_pointsOf.mp hi).2
        · have := hle i hi
          omega

theorem MergedSoFar.run : ∀ {xs merged : List (ℤ × ℤ)} {seen : Finset ℤ} {bound : ℤ},
    MergedSoFar f merged seen bound → (∀ x ∈ xs, x.1 ≤ x.2 ∧ bound ≤ x.1) →
    xs.Pairwise (fun a b => a.1 ≤ b.1) →
    sumOver f (xs.foldl mergeInto merged) = ∑ i ∈ coveredBy xs ∪ seen, f i := by
  intro xs
  induction xs with
  | nil =>
    intro merged seen bound h _ _
    rw [coveredBy, List.foldr_nil, Finset.empty_union]
    exact h.sum
  | cons x xs ih =>
    intro merged seen bound h hxs hsorted
    obtain ⟨hproper, hbound⟩ := hxs x List.mem_cons_self
    obtain ⟨hfirst, hrest⟩ := List.pairwise_cons.mp hsorted
    rw [List.foldl_cons, ih (h.step hproper hbound)
      (fun y hy => ⟨(hxs y (List.mem_cons_of_mem _ hy)).1, hfirst y hy⟩) hrest]
    congr 1
    show coveredBy xs ∪ (pointsOf x ∪ seen) = pointsOf x ∪ coveredBy xs ∪ seen
    rw [← Finset.union_assoc, Finset.union_comm (coveredBy xs)]

/-- **What is summed over the merged intervals** is summed over the points covered. -/
theorem sum_mergeIntervals {xs : List (ℤ × ℤ)} (hproper : ∀ x ∈ xs, x.1 ≤ x.2)
    (hsorted : xs.Pairwise fun a b => a.1 ≤ b.1) :
    sumOver f (mergeIntervals xs) = ∑ i ∈ coveredBy xs, f i := by
  have hreverse : sumOver f (mergeIntervals xs) = sumOver f (xs.foldl mergeInto []) := by
    unfold sumOver mergeIntervals
    rw [List.map_reverse, List.sum_reverse]
  rw [hreverse]
  cases xs with
  | nil => rfl
  | cons x xs =>
    obtain ⟨hfirst, hrest⟩ := List.pairwise_cons.mp hsorted
    have hstart : MergedSoFar f [] ∅ x.1 :=
      ⟨rfl, fun _ => rfl, fun _ _ h => absurd h.symm (List.cons_ne_nil _ _)⟩
    have hbound : ∀ y ∈ x :: xs, y.1 ≤ y.2 ∧ x.1 ≤ y.1 := by
      intro y hy
      refine ⟨hproper y hy, ?_⟩
      rcases List.mem_cons.mp hy with rfl | hy
      · exact le_rfl
      · exact hfirst y hy
    rw [MergedSoFar.run hstart hbound hsorted, Finset.union_empty]

end Sums

/-! ## §3. Differences. -/

/-- Differences of `g` sum to the difference at the ends. -/
theorem sum_telescope (g : ℤ → ℤ) {a b : ℤ} (h : a ≤ b + 1) :
    ∑ i ∈ Finset.Icc a b, (g (i + 1) - g i) = g (b + 1) - g a := by
  obtain ⟨n, hn⟩ := Int.eq_ofNat_of_zero_le (show 0 ≤ b + 1 - a by omega)
  obtain rfl : b = a + n - 1 := by omega
  clear h hn
  induction n with
  | zero => simp
  | succ n ih =>
    have hsplit : Finset.Icc a (a + (n + 1 : ℕ) - 1) = insert (a + (n : ℤ)) (Finset.Icc a (a + n - 1)) := by
      ext i
      rw [Finset.mem_insert, Finset.mem_Icc, Finset.mem_Icc]
      push_cast
      omega
    rw [hsplit, Finset.sum_insert (by rw [Finset.mem_Icc]; omega), ih]
    push_cast
    have hlast : a + (n : ℤ) - 1 + 1 = a + n := by omega
    have hnext : a + ((n : ℤ) + 1) - 1 + 1 = a + n + 1 := by omega
    rw [hlast, hnext]
    omega

end My98.Lib
