/-
  My98.Disk.BootRanges — the ranges that `selectBootRanges` returns are the best there are.

  What a family of ranges is worth is said of the units that were touched, without the code's
  columns: how many it covers, how many units it downloads, and how early its units were touched.
  A range whose ends are not observed units covers no more than the range between the first and
  the last observed unit inside, and downloads at least as much, so ranges of indices are enough.

  **MAIN RESULT**: `selectBootRanges_best` — for every list of units and every whole percentage,
  the ranges are a family, in the order of first use, the totals reported are those of the ranges,
  and no family is better.
-/
import Mathlib.Algebra.BigOperators.Group.List.Basic
import Mathlib.Tactic.Linarith
import My98.Disk.RangeProfile

namespace My98.Disk.RangeProfile

open My98.Lib

/-! ## §1. What is to be optimised. -/

/-- The range holds the unit. -/
def covers (r : Int × Int) (u : Int) : Bool := decide (r.1 ≤ u) && decide (u ≤ r.2)

/-- How many different units were touched before `u`. -/
def firstTouchRank (touched : List Int) (u : Int) : Nat :=
  (touched.takeWhile (· != u)).dedup.length

/-- The different units that were touched and lie in one of the ranges. -/
def covered (touched : List Int) (family : List (Int × Int)) : List Int :=
  touched.dedup.filter fun u => family.any fun r => covers r u

def coveredUnits (touched : List Int) (family : List (Int × Int)) : Int :=
  (covered touched family).length

def downloadUnits (family : List (Int × Int)) : Int :=
  (family.map fun r => r.2 - r.1 + 1).sum

def rankSum (touched : List Int) (family : List (Int × Int)) : Int :=
  ((covered touched family).map fun u => (firstTouchRank touched u : Int)).sum

/-- At most 32 disjoint ranges, each with `percent` of its units observed. -/
structure Family (touched : List Int) (percent : Int) (family : List (Int × Int)) : Prop where
  few : family.length ≤ 32
  proper : ∀ r ∈ family, r.1 ≤ r.2
  disjoint : family.Pairwise fun a b => a.2 < b.1 ∨ b.2 < a.1
  floor : ∀ r ∈ family,
    percent * (r.2 - r.1 + 1) ≤ 100 * (touched.dedup.filter (covers r)).length

/-- A unit of the first range is touched no later than every unit of the second. -/
def UsedBefore (touched : List Int) (a b : Int × Int) : Prop :=
  ∃ u ∈ touched, covers a u = true ∧
    ∀ v ∈ touched, covers b v = true → firstTouchRank touched u ≤ firstTouchRank touched v

/-- The profile is a best one. -/
structure Best (touched : List Int) (percent : Int) (profile : Profile)
    (chosen : List (Int × Int)) : Prop where
  family : Family touched percent chosen
  slots : profile.ranges = chosen.map some ++ List.replicate (32 - chosen.length) none
  listed : chosen.Pairwise (UsedBefore touched)
  hits : profile.coveredUnits = coveredUnits touched chosen
  size : profile.downloadUnits = downloadUnits chosen
  rank : profile.rankSum = rankSum touched chosen
  best : ∀ other, Family touched percent other →
    coveredUnits touched other < profile.coveredUnits ∨
    coveredUnits touched other = profile.coveredUnits ∧
      (profile.downloadUnits < downloadUnits other ∨
      profile.downloadUnits = downloadUnits other ∧ profile.rankSum ≤ rankSum touched other)

/-! ## §2. The touches. -/

/-- What the map holds after the touches. -/
structure Touched (touched : List Int) (ranks : Ranks) : Prop where
  nodup : (ranks.map Prod.fst).Nodup
  mem : ∀ u, u ∈ ranks.map Prod.fst ↔ u ∈ touched
  get : ∀ u ∈ touched, ranks.get u = firstTouchRank touched u

/-- What precedes a unit that was touched does not depend on what follows. -/
theorem takeWhile_before {touched : List Int} {u : Int} (h : u ∈ touched) (rest : List Int) :
    (touched ++ rest).takeWhile (· != u) = touched.takeWhile (· != u) := by
  induction touched with
  | nil => cases h
  | cons v touched ih =>
    by_cases hv : v = u
    · subst hv
      simp
    · have hmem : u ∈ touched := (List.mem_cons.mp h).resolve_left (fun h => hv h.symm)
      simp [hv, ih hmem]

/-- All of the touched units precede a new one. -/
theorem takeWhile_new {touched : List Int} {u : Int} (h : u ∉ touched) :
    (touched ++ [u]).takeWhile (· != u) = touched := by
  rw [List.takeWhile_append_of_pos]
  · simp
  · intro v hv
    exact bne_iff_ne.mpr fun heq => h (heq ▸ hv)

/-- A unit has a rank when it is in the table. -/
theorem lookup_isSome (ranks : Ranks) (u : Int) :
    (List.lookup u ranks).isSome = true ↔ u ∈ ranks.map Prod.fst := by
  rw [List.lookup_isSome_iff, List.mem_map]
  constructor
  · rintro ⟨p, hp, heq⟩
    exact ⟨p, hp, (beq_iff_eq.mp heq).symm⟩
  · rintro ⟨p, hp, heq⟩
    exact ⟨p, hp, beq_iff_eq.mpr heq.symm⟩

/-- The table has the touched units, each once. -/
theorem Touched.perm {touched : List Int} {ranks : Ranks} (h : Touched touched ranks) :
    (ranks.map Prod.fst).Perm touched.dedup :=
  (List.perm_ext_iff_of_nodup h.nodup (List.nodup_dedup touched)).mpr fun u =>
    (h.mem u).trans List.mem_dedup.symm

/-- One touch. -/
theorem Touched.touch {touched : List Int} {ranks : Ranks} (h : Touched touched ranks) {u : Int}
    (hu : 0 ≤ u ∧ u < 2 ^ 24) :
    ∃ ranks', touch ranks u = .ok ranks' ∧ Touched (touched ++ [u]) ranks' := by
  rw [RangeProfile.touch, if_neg (by omega)]
  by_cases hseen : (List.lookup u ranks).isSome = true
  · rw [if_pos hseen]
    have hmem : u ∈ touched := (h.mem u).mp ((lookup_isSome ranks u).mp hseen)
    have hsame : ∀ v, v ∈ touched ++ [u] ↔ v ∈ touched := by
      intro v
      rw [List.mem_append, List.mem_singleton]
      exact ⟨fun hv => hv.elim id fun heq => heq ▸ hmem, .inl⟩
    refine ⟨ranks, rfl, h.nodup, fun v => (h.mem v).trans (hsame v).symm, fun v hv => ?_⟩
    rw [h.get v ((hsame v).mp hv), firstTouchRank, firstTouchRank,
      takeWhile_before ((hsame v).mp hv)]
  · rw [if_neg hseen]
    have hnew : u ∉ ranks.map Prod.fst := fun hmem => hseen ((lookup_isSome ranks u).mpr hmem)
    have hnone : List.lookup u ranks = none := by
      cases hl : List.lookup u ranks with
      | none => rfl
      | some k => exact absurd (by rw [hl]; rfl) hseen
    refine ⟨_, rfl, ?_, fun v => ?_, fun v hv => ?_⟩
    · rw [List.map_append, List.nodup_append]
      refine ⟨h.nodup, List.nodup_singleton _, fun a ha b hb heq => hnew ?_⟩
      obtain rfl := List.mem_singleton.mp hb
      exact heq ▸ ha
    · rw [List.map_append, List.mem_append, List.mem_append, h.mem v]
      rfl
    · rw [Ranks.get, List.lookup_append]
      by_cases hold : v ∈ touched
      · obtain ⟨k, hk⟩ := Option.isSome_iff_exists.mp ((lookup_isSome ranks v).mpr ((h.mem v).mpr hold))
        have hget := h.get v hold
        rw [Ranks.get, hk, Option.getD_some] at hget
        rw [hk, Option.some_or, Option.getD_some, hget, firstTouchRank, firstTouchRank,
          takeWhile_before hold]
      · obtain rfl : v = u := by simpa [hold] using hv
        rw [hnone, Option.none_or, List.lookup_cons_self, Option.getD_some, firstTouchRank, takeWhile_new hold, ← h.perm.length_eq,
          List.length_map]

/-- **`touchAll` ranks the units in the order in which they were first touched.** -/
theorem touchAll_touched {rest : List Int} : ∀ {touched : List Int} {ranks : Ranks},
    Touched touched ranks → (∀ u ∈ rest, 0 ≤ u ∧ u < 2 ^ 24) →
    ∃ ranks', touchAll ranks rest = .ok ranks' ∧ Touched (touched ++ rest) ranks' := by
  induction rest with
  | nil => exact fun h _ => ⟨_, rfl, by rwa [List.append_nil]⟩
  | cons u rest ih =>
    intro touched ranks h hunits
    obtain ⟨ranks₁, htouch, h₁⟩ := h.touch (hunits u List.mem_cons_self)
    obtain ⟨ranks₂, hall, h₂⟩ := ih h₁ fun v hv => hunits v (List.mem_cons_of_mem _ hv)
    refine ⟨ranks₂, ?_, by rwa [List.append_assoc] at h₂⟩
    rw [touchAll, htouch]
    exact hall

/-- The empty table has touched nothing. -/
theorem touched_nil : Touched [] [] :=
  ⟨List.nodup_nil, fun _ => Iff.rfl, fun _ h => by cases h⟩

/-! ## §3. What a range is worth. -/

/-- The columns of a list of touches. -/
structure Columns.Of (c : Columns) (touched : List Int) : Prop where
  sorted : c.units.Pairwise (· < ·)
  perm : c.units.Perm touched.dedup
  get : ∀ u ∈ touched, c.ranks.get u = firstTouchRank touched u
  floor : 0 < c.percent

/-- The sorted table is the columns of what was touched. -/
theorem Touched.columns {touched : List Int} {ranks : Ranks} (h : Touched touched ranks)
    {percent : Int} (hp : 0 < percent) :
    Columns.Of { percent, ranks, units := sortUnits (ranks.map Prod.fst) } touched :=
  ⟨sortUnits_sorted h.nodup, (List.perm_insertionSort (· ≤ ·) _).trans h.perm, h.get, hp⟩

section Worths

variable (c : Columns)

/-- One observed unit. -/
def unitWorth (u : Int) : Worth := point 1 0 (c.ranks.get u)

/-- The observed units that satisfy `p`. -/
def unitsWorth (p : Int → Bool) : Worth := ((c.units.filter p).map (unitWorth c)).sum

def rangeWorth (r : Int × Int) : Worth := unitsWorth c (covers r) + point 0 (r.2 - r.1 + 1) 0

def familyWorth (family : List (Int × Int)) : Worth := (family.map (rangeWorth c)).sum

/-- The worth of units is how many they are, and the sum of their ranks. -/
theorem unitsWorth_eq (p : Int → Bool) : unitsWorth c p =
    point (c.units.filter p).length 0 (((c.units.filter p).map fun u => (c.ranks.get u : Int)).sum) := by
  unfold unitsWorth
  induction c.units.filter p with
  | nil => rfl
  | cons u units ih =>
    rw [List.map_cons, List.sum_cons, ih, unitWorth, point_add, List.map_cons, List.sum_cons,
      List.length_cons, Nat.cast_add, Nat.cast_one, add_comm (1 : Int), add_zero]

/-- No unit is counted twice. -/
theorem unitsWorth_or {p q : Int → Bool} (h : ∀ u, p u = true → q u = false) :
    unitsWorth c (fun u => p u || q u) = unitsWorth c p + unitsWorth c q := by
  unfold unitsWorth
  induction c.units with
  | nil => exact (add_zero _).symm
  | cons u units ih =>
    cases hp : p u with
    | true =>
      have hq := h u hp
      rw [List.filter_cons_of_pos (by rw [hp]; rfl), List.filter_cons_of_pos hp,
        List.filter_cons_of_neg (by rw [hq]; exact Bool.false_ne_true), List.map_cons,
        List.map_cons, List.sum_cons, List.sum_cons, ih, add_assoc]
    | false =>
      cases hq : q u with
      | true =>
        rw [List.filter_cons_of_pos (by rw [hp, hq]; rfl),
          List.filter_cons_of_neg (by rw [hp]; exact Bool.false_ne_true),
          List.filter_cons_of_pos hq, List.map_cons, List.map_cons, List.sum_cons, List.sum_cons,
          ih, add_left_comm]
      | false =>
        rw [List.filter_cons_of_neg (by rw [hp, hq]; exact Bool.false_ne_true),
          List.filter_cons_of_neg (by rw [hp]; exact Bool.false_ne_true),
          List.filter_cons_of_neg (by rw [hq]; exact Bool.false_ne_true), ih]

/-- Ranges that are disjoint. -/
def Apart (a b : Int × Int) : Prop := a.2 < b.1 ∨ b.2 < a.1

/-- Of two ranges apart, one does not cover the units of the other. -/
theorem Apart.covers {a b : Int × Int} (h : Apart a b) {u : Int} (hu : covers a u = true) :
    RangeProfile.covers b u = false := by
  simp only [RangeProfile.covers, Bool.and_eq_true, decide_eq_true_eq, Bool.and_eq_false_iff,
    decide_eq_false_iff_not] at hu ⊢
  unfold Apart at h
  omega

/-- The worth of ranges apart is that of the units they cover, and the size downloaded. -/
theorem familyWorth_eq {family : List (Int × Int)} (h : family.Pairwise Apart) :
    familyWorth c family = unitsWorth c (fun u => family.any fun r => covers r u) +
      point 0 (downloadUnits family) 0 := by
  induction family with
  | nil =>
    show 0 = unitsWorth c (fun _ => false) + 0
    rw [unitsWorth, List.filter_false]
    rfl
  | cons r family ih =>
    obtain ⟨hr, hrest⟩ := List.pairwise_cons.mp h
    have hapart : ∀ u, covers r u = true → (family.any fun r => covers r u) = false :=
      fun u hu => List.any_eq_false.mpr fun r' hr' => by
        rw [(hr r' hr').covers hu]
        exact Bool.false_ne_true
    have hsize : point 0 (downloadUnits (r :: family)) 0 =
        point 0 (r.2 - r.1 + 1) 0 + point 0 (downloadUnits family) 0 := by
      rw [point_add, downloadUnits, List.map_cons, List.sum_cons]
      rfl
    calc familyWorth c (r :: family) = rangeWorth c r + familyWorth c family := by
          rw [familyWorth, List.map_cons, List.sum_cons]
          rfl
      _ = (unitsWorth c (covers r) + unitsWorth c (fun u => family.any fun r => covers r u)) +
            (point 0 (r.2 - r.1 + 1) 0 + point 0 (downloadUnits family) 0) := by
          rw [ih hrest, rangeWorth, add_add_add_comm]
      _ = _ := by
          rw [← unitsWorth_or c hapart, ← hsize]
          rfl

/-- **The worth of a family is what it covers, downloads and uses early.** -/
theorem Columns.Of.familyWorth {touched : List Int} {c : Columns} (hc : c.Of touched)
    {family : List (Int × Int)} (h : family.Pairwise Apart) :
    point (coveredUnits touched family) (downloadUnits family) (rankSum touched family) =
      RangeProfile.familyWorth c family := by
  have hperm : (c.units.filter fun u => family.any fun r => covers r u).Perm
      (covered touched family) := hc.perm.filter _
  have hrank : ((c.units.filter fun u => family.any fun r => covers r u).map
      fun u => (c.ranks.get u : Int)).sum = rankSum touched family := by
    rw [(hperm.map _).sum_eq, rankSum]
    congr 1
    refine List.map_congr_left fun u hu => ?_
    rw [hc.get u (List.mem_dedup.mp (List.mem_filter.mp hu).1)]
  rw [familyWorth_eq c h, unitsWorth_eq, point_add, hperm.length_eq, hrank, add_zero, zero_add,
    add_zero]
  rfl

end Worths

/-! ## §4. Ranges of indices. -/

section Indices

variable {c : Columns}

/-- The columns are in strict order. -/
theorem unit_lt (hs : c.units.Pairwise (· < ·)) {i j : Nat} (hij : i < j) (hj : j < c.n) :
    c.unit i < c.unit j :=
  getD_lt hs hij hj

/-- So they are in order. -/
theorem unit_le (hs : c.units.Pairwise (· < ·)) {i j : Nat} (hij : i ≤ j) (hj : j < c.n) :
    c.unit i ≤ c.unit j := by
  obtain rfl | hlt := Nat.eq_or_lt_of_le hij
  · exact le_rfl
  · exact le_of_lt (unit_lt hs hlt hj)

/-- The columns by their positions. -/
theorem units_eq (c : Columns) : c.units = (List.range c.n).map c.unit := by
  apply List.ext_getElem
  · rw [List.length_map, List.length_range]
    rfl
  · intro i hi _
    rw [List.getElem_map, List.getElem_range]
    exact (List.getD_eq_getElem _ _ hi).symm

/-- The units before an index, as a point. -/
def prefixWorth (c : Columns) (m : Nat) : Worth := point m 0 (c.rankPrefix m)

/-- One more column adds its own worth. -/
theorem prefixWorth_succ (c : Columns) (m : Nat) :
    prefixWorth c (m + 1) = prefixWorth c m + unitWorth c (c.unit m) := by
  rw [prefixWorth, prefixWorth, unitWorth, point_add, Nat.cast_add, Nat.cast_one]
  rfl

/-- The worth between two columns is a difference of prefixes. -/
theorem sum_between (c : Columns) {i j : Nat} (hij : i ≤ j) (m : Nat) :
    ((((List.range m).filter fun k => decide (i ≤ k) && decide (k < j)).map c.unit).map
      (unitWorth c)).sum = prefixWorth c (min m j) - prefixWorth c (min m i) := by
  induction m with
  | zero =>
    rw [Nat.zero_min, Nat.zero_min, sub_self]
    rfl
  | succ m ih =>
    rw [List.range_succ, List.filter_append, List.map_append, List.map_append, List.sum_append, ih]
    by_cases hi : i ≤ m
    · rw [Nat.min_eq_right hi, Nat.min_eq_right (Nat.le_succ_of_le hi)]
      by_cases hj : m < j
      · rw [Nat.min_eq_left (Nat.le_of_lt hj), Nat.min_eq_left hj, prefixWorth_succ,
          List.filter_cons_of_pos (by simp [hi, hj])]
        simp only [List.filter_nil, List.map_cons, List.map_nil, List.sum_cons, List.sum_nil]
        abel
      · rw [Nat.min_eq_right (Nat.le_of_not_lt hj), Nat.min_eq_right (by omega),
          List.filter_cons_of_neg (by simp [hj])]
        exact add_zero _
    · rw [List.filter_cons_of_neg (by simp [hi]), Nat.min_eq_left (by omega : m ≤ i),
        Nat.min_eq_left (by omega : m ≤ j), Nat.min_eq_left (by omega : m + 1 ≤ i),
        Nat.min_eq_left (by omega : m + 1 ≤ j), sub_self, sub_self]
      exact add_zero _

/-- The units of a range that covers exactly the indices `[i, j)`. -/
theorem unitsWorth_between {i j : Nat} (hij : i ≤ j) (hj : j ≤ c.n) {p : Int → Bool}
    (h : ∀ k < c.n, p (c.unit k) = true ↔ i ≤ k ∧ k < j) :
    unitsWorth c p = prefixWorth c j - prefixWorth c i := by
  have hfilter : c.units.filter p =
      ((List.range c.n).filter fun k => decide (i ≤ k) && decide (k < j)).map c.unit := by
    rw [units_eq, List.filter_map]
    congr 1
    refine List.filter_congr fun k hk => ?_
    rw [Bool.eq_iff_iff, Function.comp_apply, h k (List.mem_range.mp hk), Bool.and_eq_true,
      decide_eq_true_eq, decide_eq_true_eq]
  rw [unitsWorth, hfilter, sum_between c hij, Nat.min_eq_right hj, Nat.min_eq_right (hij.trans hj)]

/-- The range has enough observed units, counted in the columns. -/
structure Fits (c : Columns) (r : Int × Int) : Prop where
  proper : r.1 ≤ r.2
  floor : c.percent * (r.2 - r.1 + 1) ≤ 100 * (c.units.filter (covers r)).length

/-- The worth tells how many units are hit. -/
theorem point_hits {a b d a' b' d' : Int} (h : point a b d = point a' b' d') : a = a' := by
  have hfst : -a = -a' := congrArg (fun w : Worth => (ofLex w).1) h
  omega

/-- Worths are subtracted part by part. -/
theorem point_sub (a b d a' b' d' : Int) :
    point a b d - point a' b' d' = point (a - a') (b - b') (d - d') := by
  rw [sub_eq_iff_eq_add, point_add, sub_add_cancel, sub_add_cancel, sub_add_cancel]

/-- More to download is a greater point. -/
theorem point_mono {a b b' d : Int} (h : b ≤ b') : point a b d ≤ point a b' d := by
  refine Prod.Lex.toLex_le_toLex.mpr (.inr ⟨rfl, Prod.Lex.toLex_le_toLex.mpr ?_⟩)
  exact (lt_or_eq_of_le h).imp id fun heq => ⟨heq, le_rfl⟩

/-- A range of the indices `[i, j)`. -/
structure Spans (c : Columns) (r : Int × Int) (i j : Nat) : Prop where
  lt : i < j
  le : j ≤ c.n
  covers : ∀ k < c.n, covers r (c.unit k) = true ↔ i ≤ k ∧ k < j

/-- A range that spans the columns `i` to `j` hits `j - i` units. -/
theorem Spans.count {r : Int × Int} {i j : Nat} (h : Spans c r i j) :
    ((c.units.filter (RangeProfile.covers r)).length : Int) = j - i := by
  have hworth := unitsWorth_between (le_of_lt h.lt) h.le h.covers
  rw [unitsWorth_eq, prefixWorth, prefixWorth, point_sub] at hworth
  exact point_hits hworth

/-- Its worth is a difference of prefixes, and its own size. -/
theorem Spans.worth {r : Int × Int} {i j : Nat} (h : Spans c r i j) :
    rangeWorth c r = point (j - i) (r.2 - r.1 + 1) (c.rankPrefix j - c.rankPrefix i) := by
  rw [rangeWorth, unitsWorth_between (le_of_lt h.lt) h.le h.covers, prefixWorth, prefixWorth,
    point_sub, point_add]
  congr 1 <;> ring

/-- Where the ends of a range fall among the observed units. -/
def indices (c : Columns) (r : Int × Int) : Nat × Nat :=
  (bound c.units r.1 false, bound c.units r.2 true)

/-- The first index of a range counts the units before it. -/
theorem lt_indices_fst (hs : c.units.Pairwise (· < ·)) (r : Int × Int) {k : Nat} (hk : k < c.n) :
    k < (indices c r).1 ↔ c.unit k < r.1 := by
  refine ((bound_spec hs r.1 false).2 k hk).trans ⟨fun h => ?_, .inl⟩
  exact h.elim id fun h => by cases h.1

/-- The second counts those up to its end. -/
theorem lt_indices_snd (hs : c.units.Pairwise (· < ·)) (r : Int × Int) {k : Nat} (hk : k < c.n) :
    k < (indices c r).2 ↔ c.unit k ≤ r.2 := by
  refine ((bound_spec hs r.2 true).2 k hk).trans ⟨fun h => ?_, fun h => ?_⟩
  · exact h.elim le_of_lt fun h => le_of_eq h.2
  · exact (lt_or_eq_of_le h).imp id fun heq => ⟨rfl, heq⟩

/-- No index leaves the columns. -/
theorem indices_le (hs : c.units.Pairwise (· < ·)) (r : Int × Int) : (indices c r).2 ≤ c.n :=
  (bound_spec hs r.2 true).1

/-- **A range with enough observed units has one**, so its ends span indices. -/
theorem Fits.spans (hs : c.units.Pairwise (· < ·)) (hp : 0 < c.percent) {r : Int × Int}
    (h : Fits c r) : Spans c r (indices c r).1 (indices c r).2 := by
  have hcovers : ∀ k < c.n, covers r (c.unit k) = true ↔
      (indices c r).1 ≤ k ∧ k < (indices c r).2 := by
    intro k hk
    rw [covers, Bool.and_eq_true, decide_eq_true_eq, decide_eq_true_eq,
      lt_indices_snd hs r hk, ← Nat.not_lt, lt_indices_fst hs r hk, not_lt]
  have hsize : 0 < c.percent * (r.2 - r.1 + 1) := Int.mul_pos hp (by have := h.proper; omega)
  obtain ⟨u, hu⟩ : ∃ u, u ∈ c.units.filter (covers r) := by
    apply List.exists_mem_of_length_pos
    have := h.floor
    omega
  obtain ⟨humem, hucovers⟩ := List.mem_filter.mp hu
  rw [units_eq] at humem
  obtain ⟨k, hk, rfl⟩ := List.mem_map.mp humem
  have hbetween := (hcovers k (List.mem_range.mp hk)).mp hucovers
  exact ⟨by omega, indices_le hs r, hcovers⟩

/-- **Nothing is lost by ending a range at observed units.** -/
theorem Fits.indices_good (hs : c.units.Pairwise (· < ·)) (hp : 0 < c.percent) {r : Int × Int}
    (h : Fits c r) :
    c.ok (indices c r).1 (indices c r).2 ∧
      c.cost (indices c r).1 (indices c r).2 ≤ rangeWorth c r := by
  have hspans := h.spans hs hp
  have hlt := hspans.lt
  have hle := hspans.le
  generalize hi : (indices c r).1 = i at *
  generalize hj : (indices c r).2 = j at *
  have hfirst := (hspans.covers i (by omega)).mpr ⟨le_rfl, hlt⟩
  have hlast := (hspans.covers (j - 1) (by omega)).mpr ⟨by omega, by omega⟩
  simp only [covers, Bool.and_eq_true, decide_eq_true_eq] at hfirst hlast
  have hlen : c.unit (j - 1) - c.unit i + 1 ≤ r.2 - r.1 + 1 := by omega
  constructor
  · have hfloor := h.floor
    rw [hspans.count] at hfloor
    have hmul := Int.mul_le_mul_of_nonneg_left hlen (le_of_lt hp)
    unfold Columns.ok Columns.key Columns.limit
    linarith
  · rw [hspans.worth]
    exact point_mono hlen

/-- What is found from an index range that is allowed. -/
theorem spans_units (hs : c.units.Pairwise (· < ·)) {i j : Nat} (hij : i < j) (hj : j ≤ c.n) :
    Spans c (c.unit i, c.unit (j - 1)) i j := by
  refine ⟨hij, hj, fun k hk => ?_⟩
  simp only [covers, Bool.and_eq_true, decide_eq_true_eq]
  constructor
  · rintro ⟨hlow, hhigh⟩
    constructor
    · by_contra hlt
      exact absurd (unit_lt hs (by omega : k < i) (by omega)) (by omega)
    · by_contra hge
      exact absurd (unit_lt hs (by omega : j - 1 < k) hk) (by omega)
  · rintro ⟨hik, hkj⟩
    exact ⟨unit_le hs hik hk, unit_le hs (by omega) (by omega)⟩

/-- Two columns that may be joined are the ends of a range that fits. -/
theorem fits_units (hs : c.units.Pairwise (· < ·)) {i j : Nat} (hij : i < j) (hj : j ≤ c.n)
    (hok : c.ok i j) : Fits c (c.unit i, c.unit (j - 1)) := by
  refine ⟨unit_le hs (by omega) (by omega), ?_⟩
  rw [(spans_units hs hij hj).count]
  unfold Columns.ok Columns.key Columns.limit at hok
  dsimp only
  linarith

/-! ## §5. Chains are families. -/

/-- The ranges from the last one to the first. -/
abbrev Descending (family : List (Int × Int)) : Prop := family.Pairwise fun a b => b.2 < a.1

/-- **A family that is listed from its last range is a chain that costs no more.** -/
theorem chain_of_family (hs : c.units.Pairwise (· < ·)) (hp : 0 < c.percent)
    {family : List (Int × Int)} (hfits : ∀ r ∈ family, Fits c r) (hdesc : Descending family)
    {m : Nat} (hm : ∀ r ∈ family, (indices c r).2 ≤ m) :
    Chains.Chain c.ok m (family.map (indices c)) ∧
      Chains.total c.cost (family.map (indices c)) ≤ familyWorth c family := by
  induction family generalizing m with
  | nil => exact ⟨trivial, le_rfl⟩
  | cons r rest ih =>
    obtain ⟨hbefore, hrest⟩ := List.pairwise_cons.mp hdesc
    have hr := hfits r List.mem_cons_self
    obtain ⟨hok, hcost⟩ := hr.indices_good hs hp
    have hbelow : ∀ r' ∈ rest, (indices c r').2 ≤ (indices c r).1 := by
      intro r' hr'
      by_contra hover
      have hk : (indices c r).1 < c.n := by
        have := indices_le hs r'
        omega
      have hunit := (lt_indices_snd hs r' hk).mp (by omega)
      have hless := hbefore r' hr'
      exact lt_irrefl _ ((lt_indices_fst hs r hk).mpr (by omega))
    obtain ⟨hchain, htotal⟩ := ih (fun r' hr' => hfits r' (List.mem_cons_of_mem _ hr')) hrest hbelow
    refine ⟨⟨(hr.spans hs hp).lt, hm r List.mem_cons_self, hok, hchain⟩, ?_⟩
    calc Chains.total c.cost ((r :: rest).map (indices c))
        = c.cost (indices c r).1 (indices c r).2 + Chains.total c.cost (rest.map (indices c)) := by
          rw [List.map_cons, Chains.total_cons]
      _ ≤ rangeWorth c r + familyWorth c rest := add_le_add hcost htotal
      _ = familyWorth c (r :: rest) := by
          rw [familyWorth, familyWorth, List.map_cons, List.sum_cons]

/-- **A chain is a family worth what it costs.** -/
theorem family_of_chain (hs : c.units.Pairwise (· < ·)) {chain : List (Nat × Nat)} {m : Nat}
    (hm : m ≤ c.n) (h : Chains.Chain c.ok m chain) :
    let family := chain.map fun r => (c.unit r.1, c.unit (r.2 - 1))
    (∀ r ∈ family, Fits c r) ∧ Descending family ∧
      (∀ r ∈ family, ∃ j < m, r.2 = c.unit j) ∧
      familyWorth c family = Chains.total c.cost chain := by
  induction chain generalizing m with
  | nil => exact ⟨fun _ h => (by cases h), List.Pairwise.nil, fun _ h => (by cases h), rfl⟩
  | cons r rest ih =>
    obtain ⟨i, j⟩ := r
    obtain ⟨hlt, hle, hok, hrest⟩ := h
    dsimp only at hlt hle hok hrest
    obtain ⟨hfits, hdesc, hends, hworth⟩ := ih (by omega) hrest
    refine ⟨fun r hr => ?_, List.pairwise_cons.mpr ⟨fun r hr => ?_, hdesc⟩, fun r hr => ?_, ?_⟩
    · cases List.mem_cons.mp hr with
      | inl heq => exact heq ▸ fits_units hs hlt (by omega) hok
      | inr hmem => exact hfits r hmem
    · obtain ⟨k, hk, heq⟩ := hends r hr
      rw [heq]
      exact unit_lt hs hk (by omega)
    · cases List.mem_cons.mp hr with
      | inl heq => exact ⟨j - 1, by omega, by rw [heq]⟩
      | inr hmem =>
        obtain ⟨k, hk, heq⟩ := hends r hmem
        exact ⟨k, by omega, heq⟩
    · rw [Chains.total_cons, ← hworth, familyWorth, familyWorth, List.map_cons, List.map_cons,
        List.sum_cons, (spans_units hs hlt (by omega)).worth]
      rfl

/-! ## §6. Merging. -/

/-- The ranges from the first one to the last. -/
abbrev Ascending (family : List (Int × Int)) : Prop := family.Pairwise fun a b => a.2 < b.1

/-- Sorting a list that goes down turns it round. -/
theorem insertionSort_reverse {α : Type} {r : α → α → Prop} [DecidableRel r] {l : List α}
    (h : l.Pairwise fun a b => ¬r a b) : l.insertionSort r = l.reverse := by
  induction l with
  | nil => rfl
  | cons a l ih =>
    obtain ⟨ha, hl⟩ := List.pairwise_cons.mp h
    have hinsert : ∀ l' : List α, (∀ b ∈ l', ¬r a b) → l'.orderedInsert r a = l' ++ [a] := by
      intro l' hl'
      induction l' with
      | nil => rfl
      | cons b l' ih' =>
        rw [List.orderedInsert_of_not_le _ _ (hl' b List.mem_cons_self),
          ih' fun b' hb' => hl' b' (List.mem_cons_of_mem _ hb')]
        rfl
    rw [List.insertionSort_cons, ih hl, List.reverse_cons]
    exact hinsert l.reverse fun b hb => ha b (List.mem_reverse.mp hb)

/-- `mergeNext` looks only at the last range. -/
theorem mergeNext_concat (merged : List (Int × Int)) (last range : Int × Int) :
    mergeNext (merged ++ [last]) range =
      if last.2 + 1 = range.1 then merged ++ [(last.1, range.2)]
      else merged ++ [last, range] := by
  rw [mergeNext, List.getLast?_concat, List.dropLast_concat, List.append_assoc]
  rfl

/-- Two ranges that touch cover together what their join covers. -/
theorem covers_join {a b : Int × Int} (ha : a.1 ≤ a.2) (hb : b.1 ≤ b.2) (h : a.2 + 1 = b.1) :
    covers (a.1, b.2) = fun u => covers a u || covers b u := by
  funext u
  rw [Bool.eq_iff_iff]
  simp only [covers, Bool.or_eq_true, Bool.and_eq_true, decide_eq_true_eq]
  omega

/-- So the join has the worth of both. -/
theorem unitsWorth_join (c : Columns) {a b : Int × Int} (ha : a.1 ≤ a.2) (hb : b.1 ≤ b.2)
    (h : a.2 + 1 = b.1) :
    unitsWorth c (covers (a.1, b.2)) = unitsWorth c (covers a) + unitsWorth c (covers b) := by
  rw [covers_join ha hb h]
  exact unitsWorth_or c fun u hu => Apart.covers (.inl (by omega)) hu

/-- **Two adjacent ranges are worth as much as their union.** -/
theorem rangeWorth_join (c : Columns) {a b : Int × Int} (ha : a.1 ≤ a.2) (hb : b.1 ≤ b.2)
    (h : a.2 + 1 = b.1) : rangeWorth c (a.1, b.2) = rangeWorth c a + rangeWorth c b := by
  have hsize : point 0 (b.2 - a.1 + 1) 0 =
      point 0 (a.2 - a.1 + 1) 0 + point 0 (b.2 - b.1 + 1) 0 := by
    rw [point_add]
    congr 1
    omega
  rw [rangeWorth, rangeWorth, rangeWorth, unitsWorth_join c ha hb h, hsize, add_add_add_comm]

/-- The join of two ranges that fit fits. -/
theorem Fits.join {a b : Int × Int} (ha : Fits c a) (hb : Fits c b) (h : a.2 + 1 = b.1) :
    Fits c (a.1, b.2) := by
  have hcount := unitsWorth_join c ha.proper hb.proper h
  rw [unitsWorth_eq, unitsWorth_eq, unitsWorth_eq, point_add] at hcount
  have hlen := point_hits hcount
  have hproper := ha.proper
  have hproper' := hb.proper
  refine ⟨by dsimp only; omega, ?_⟩
  have hfloor := ha.floor
  have hfloor' := hb.floor
  have hsplit : b.2 - a.1 + 1 = (a.2 - a.1 + 1) + (b.2 - b.1 + 1) := by omega
  rw [hlen]
  dsimp only
  rw [hsplit, mul_add]
  linarith

/-- The worth of two families is the sum. -/
theorem familyWorth_append (c : Columns) (f g : List (Int × Int)) :
    familyWorth c (f ++ g) = familyWorth c f + familyWorth c g := by
  rw [familyWorth, List.map_append, List.sum_append]
  rfl

/-- The worth of a family, one range at a time. -/
theorem familyWorth_cons (c : Columns) (r : Int × Int) (f : List (Int × Int)) :
    familyWorth c (r :: f) = rangeWorth c r + familyWorth c f := by
  rw [familyWorth, List.map_cons, List.sum_cons]
  rfl

/-- Ranges in order, each with enough observed units, that are worth `w`. -/
structure Tidy (c : Columns) (w : Worth) (len : Nat) (family : List (Int × Int)) : Prop where
  fits : ∀ r ∈ family, Fits c r
  ascending : Ascending family
  worth : familyWorth c family = w
  few : family.length ≤ len

/-- One turn of the loop keeps the ranges tidy. -/
theorem Tidy.mergeNext {w : Worth} {len : Nat} {merged rest : List (Int × Int)} {range : Int × Int}
    (h : Tidy c w len (merged ++ range :: rest)) :
    Tidy c w len (mergeNext merged range ++ rest) := by
  obtain rfl | ⟨before, last, rfl⟩ := List.eq_nil_or_concat merged
  · exact h
  · rw [List.concat_eq_append] at h ⊢
    rw [mergeNext_concat]
    by_cases hadjacent : last.2 + 1 = range.1
    · rw [if_pos hadjacent]
      rw [List.append_assoc] at h ⊢
      change Tidy c w len (before ++ last :: range :: rest) at h
      change Tidy c w len (before ++ (last.1, range.2) :: rest)
      have hlast := h.fits last (by simp)
      have hrange := h.fits range (by simp)
      obtain ⟨hbefore, htail, hcross⟩ := List.pairwise_append.mp h.ascending
      obtain ⟨hfirst, htail'⟩ := List.pairwise_cons.mp htail
      obtain ⟨hsecond, hrest⟩ := List.pairwise_cons.mp htail'
      refine ⟨fun r hr => ?_, List.pairwise_append.mpr ⟨hbefore, ?_, fun a ha b hb => ?_⟩, ?_, ?_⟩
      · rcases List.mem_append.mp hr with hr | hr
        · exact h.fits r (List.mem_append_left _ hr)
        · rcases List.mem_cons.mp hr with rfl | hr
          · exact hlast.join hrange hadjacent
          · exact h.fits r (by simp [hr])
      · exact List.pairwise_cons.mpr ⟨hsecond, hrest⟩
      · rcases List.mem_cons.mp hb with rfl | hb
        · exact hcross a ha last List.mem_cons_self
        · exact hcross a ha b (by simp [hb])
      · rw [← h.worth, familyWorth_append, familyWorth_append, familyWorth_cons, familyWorth_cons,
          familyWorth_cons, rangeWorth_join c hlast.proper hrange.proper hadjacent, add_assoc]
      · refine le_trans ?_ h.few
        simp
    · rw [if_neg hadjacent]
      rw [List.append_assoc] at h ⊢
      exact h

/-- Merging keeps a family tidy: nothing is gained or lost by it. -/
theorem Tidy.foldl {w : Worth} {len : Nat} {rest : List (Int × Int)} :
    ∀ {merged : List (Int × Int)}, Tidy c w len (merged ++ rest) →
      Tidy c w len (rest.foldl RangeProfile.mergeNext merged) := by
  induction rest with
  | nil =>
    intro merged h
    rwa [List.append_nil] at h
  | cons range rest ih => exact fun h => ih h.mergeNext

/-- The order of a family does not count for its worth. -/
theorem Tidy.perm {w : Worth} {len : Nat} {f g : List (Int × Int)} (h : Tidy c w len f)
    (hperm : f.Perm g) : familyWorth c g = w := by
  rw [← h.worth, familyWorth, familyWorth, (hperm.map _).sum_eq]

/-- **What is merged is tidy**, and worth what the last layer reports. -/
theorem merge_tidy (hs : c.units.Pairwise (· < ·)) :
    Tidy c ((layer c rangeSlots).next.read c.n).worth rangeSlots (merge (selected c)) := by
  obtain ⟨hchain, hlen, htotal⟩ := selectedFrom_chain c rangeSlots c.n le_rfl
  obtain ⟨hfits, hdesc, -, hworth⟩ := family_of_chain hs le_rfl hchain
  have hsort : sortRanges (selected c) = (selected c).reverse := by
    apply insertionSort_reverse
    refine hdesc.imp_of_mem fun {a b} ha hb hab => ?_
    have := (hfits b hb).proper
    omega
  rw [merge, hsort]
  apply Tidy.foldl
  refine ⟨fun r hr => hfits r (List.mem_reverse.mp hr), List.pairwise_reverse.mpr hdesc, ?_, ?_⟩
  · rw [← htotal, ← hworth, familyWorth, familyWorth, List.nil_append]
    exact ((List.reverse_perm (selected c)).map _).sum_eq
  · rw [List.nil_append, List.length_reverse, selected, List.length_map]
    exact hlen

end Indices

/-! ## §7. The order of the list. -/

section Listing

variable {c : Columns}

instance : Std.Total Detail.before where
  total a b := by
    unfold Detail.before
    obtain hlt | heq | hgt := lt_trichotomy a.firstUse b.firstUse
    · exact .inl (.inl hlt)
    · exact (le_total a.start b.start).imp (fun h => .inr ⟨heq, h⟩) fun h => .inr ⟨heq.symm, h⟩
    · exact .inr (.inl hgt)

instance : IsTrans Detail Detail.before where
  trans a b d := by
    unfold Detail.before
    rintro (hab | ⟨hab, hab'⟩) (hbd | ⟨hbd, hbd'⟩)
    · exact .inl (hab.trans hbd)
    · exact .inl (hbd ▸ hab)
    · exact .inl (hab ▸ hbd)
    · exact .inr ⟨hab.trans hbd, hab'.trans hbd'⟩

/-- What comes before was used at least as early. -/
theorem Detail.before.le {a b : Detail} (h : a.before b) : a.firstUse ≤ b.firstUse :=
  h.elim le_of_lt fun h => le_of_eq h.1

/-- The fold with `Math.min` finds the least rank. -/
theorem foldl_min (f : Int → Nat) (units : List Int) : ∀ first : WithTop Nat,
    let least := units.foldl (fun first unit => min first (f unit : WithTop Nat)) first
    (least = first ∨ ∃ u ∈ units, least = f u) ∧ least ≤ first ∧ ∀ u ∈ units, least ≤ f u := by
  induction units with
  | nil => exact fun first => ⟨.inl rfl, le_rfl, fun u h => by cases h⟩
  | cons u units ih =>
    intro first
    rw [List.foldl_cons]
    obtain ⟨hfrom, hle, hall⟩ := ih (min first (f u))
    refine ⟨?_, hle.trans (min_le_left _ _), fun v hv => ?_⟩
    · rcases hfrom with hfrom | ⟨v, hv, heq⟩
      · rw [hfrom]
        exact (min_choice first (f u : WithTop Nat)).imp id fun h => ⟨u, List.mem_cons_self, h⟩
      · exact .inr ⟨v, List.mem_cons_of_mem _ hv, heq⟩
    · rcases List.mem_cons.mp hv with rfl | hv
      · exact hle.trans (min_le_right _ _)
      · exact hall v hv

/-- **The order of the details is the order of first use.** -/
theorem usedBefore_of_before {touched : List Int} (hc : c.Of touched) {a b : Int × Int}
    (ha : Fits c a) (h : (detail c a).before (detail c b)) : UsedBefore touched a b := by
  have hmem : ∀ {r : Int × Int} {u : Int},
      u ∈ c.units.filter (fun unit => decide (unit ≥ r.1 ∧ unit ≤ r.2)) ↔
        u ∈ touched ∧ covers r u = true := by
    intro r u
    rw [List.mem_filter, hc.perm.mem_iff, List.mem_dedup, covers, Bool.and_eq_true,
      decide_eq_true_eq, decide_eq_true_eq, decide_eq_true_eq]
  obtain ⟨hfrom, -, hbelow⟩ := foldl_min c.ranks.get
    (c.units.filter fun unit => decide (unit ≥ a.1 ∧ unit ≤ a.2)) ⊤
  obtain ⟨-, -, hall⟩ := foldl_min c.ranks.get
    (c.units.filter fun unit => decide (unit ≥ b.1 ∧ unit ≤ b.2)) ⊤
  have hle := h.le
  -- the first range has an observed unit, so its first use is a rank
  obtain ⟨u, hu, hfirst⟩ : ∃ u ∈ c.units.filter (fun unit => decide (unit ≥ a.1 ∧ unit ≤ a.2)),
      (detail c a).firstUse = (c.ranks.get u : WithTop Nat) := by
    rcases hfrom with htop | hfound
    · have hspans := ha.spans hc.sorted hc.floor
      have hunit : c.unit (indices c a).1 ∈ c.units := by
        rw [units_eq]
        exact List.mem_map_of_mem (List.mem_range.mpr (hspans.lt.trans_le hspans.le))
      have hcovers := (hspans.covers _ (hspans.lt.trans_le hspans.le)).mpr ⟨le_rfl, hspans.lt⟩
      have hrank := hbelow _ (hmem.mpr ⟨List.mem_dedup.mp (hc.perm.mem_iff.mp hunit), hcovers⟩)
      rw [htop] at hrank
      exact absurd (top_le_iff.mp hrank) (WithTop.coe_ne_top)
    · exact hfound
  obtain ⟨hutouched, hucovers⟩ := hmem.mp hu
  refine ⟨u, hutouched, hucovers, fun v hv hvcovers => ?_⟩
  have hv' := hall v (hmem.mpr ⟨hv, hvcovers⟩)
  rw [← hc.get u hutouched, ← hc.get v hv]
  exact WithTop.coe_le_coe.mp (hfirst.symm.le.trans (hle.trans hv'))

/-- The ranges as they are listed. -/
def listed (c : Columns) : List (Int × Int) := (details c).map fun d => (d.start, d.stop)

/-- The details are those of the merged selection, in another order. -/
theorem details_perm (c : Columns) : (details c).Perm ((merge (selected c)).map (detail c)) :=
  List.perm_insertionSort _ _

/-- So are the listed ranges. -/
theorem listed_perm (c : Columns) : (listed c).Perm (merge (selected c)) := by
  have hmap := (details_perm c).map fun d => (d.start, d.stop)
  rw [List.map_map] at hmap
  exact hmap.trans (List.Perm.of_eq (List.map_id _))

/-- They are listed in the order of their first use. -/
theorem listed_usedBefore {touched : List Int} (hc : c.Of touched) :
    (listed c).Pairwise (UsedBefore touched) := by
  have hsorted : (details c).Pairwise Detail.before := List.pairwise_insertionSort _ _
  refine List.pairwise_map.mpr (hsorted.imp_of_mem fun {a b} ha hb hab => ?_)
  obtain ⟨r, hr, rfl⟩ := List.mem_map.mp ((details_perm c).mem_iff.mp ha)
  obtain ⟨r', -, rfl⟩ := List.mem_map.mp ((details_perm c).mem_iff.mp hb)
  exact usedBefore_of_before hc ((merge_tidy hc.sorted).fits r hr) hab

end Listing

/-! ## §8. The ranges are the best. -/

section Optimum

variable {touched : List Int} {c : Columns}

/-- A range hits as many touched units as it has columns. -/
theorem Columns.Of.floor_iff (hc : c.Of touched) (r : Int × Int) :
    (touched.dedup.filter (covers r)).length = (c.units.filter (covers r)).length :=
  (hc.perm.filter _).length_eq.symm

/-- The listed ranges are a family that may be chosen. -/
theorem listed_family (hc : c.Of touched) : Family touched c.percent (listed c) := by
  have htidy := merge_tidy hc.sorted
  have hmem : ∀ r, r ∈ listed c ↔ r ∈ merge (selected c) := fun r => (listed_perm c).mem_iff
  refine ⟨?_, fun r hr => (htidy.fits r ((hmem r).mp hr)).proper, ?_, fun r hr => ?_⟩
  · rw [(listed_perm c).length_eq]
    exact htidy.few
  · refine (listed_perm c).symm.pairwise ?_ fun {a b} h => Or.symm h
    exact htidy.ascending.imp fun h => .inl h
  · rw [hc.floor_iff]
    exact (htidy.fits r ((hmem r).mp hr)).floor

/-- **The last layer reports what the ranges are worth.** -/
theorem listed_worth (hc : c.Of touched) :
    point (coveredUnits touched (listed c)) (downloadUnits (listed c)) (rankSum touched (listed c)) =
      ((layer c rangeSlots).next.read c.n).worth := by
  rw [hc.familyWorth (listed_family hc).disjoint]
  exact (merge_tidy hc.sorted).perm (listed_perm c).symm

/-- **No family is worth more.** -/
theorem family_le (hc : c.Of touched) {other : List (Int × Int)}
    (h : Family touched c.percent other) :
    ((layer c rangeSlots).next.read c.n).worth ≤
      point (coveredUnits touched other) (downloadUnits other) (rankSum touched other) := by
  -- list the family from its last range
  let down := other.insertionSort fun a b => b.1 ≤ a.1
  have hperm : down.Perm other := List.perm_insertionSort _ _
  have hfits : ∀ r ∈ down, Fits c r := by
    intro r hr
    have hr' := hperm.mem_iff.mp hr
    exact ⟨h.proper r hr', by rw [← hc.floor_iff]; exact h.floor r hr'⟩
  have hdesc : Descending down := by
    have : Std.Total fun a b : Int × Int => b.1 ≤ a.1 := ⟨fun a b => le_total b.1 a.1⟩
    have : IsTrans (Int × Int) fun a b => b.1 ≤ a.1 := ⟨fun _ _ _ hab hbd => hbd.trans hab⟩
    have hsorted : down.Pairwise fun a b => b.1 ≤ a.1 := List.pairwise_insertionSort _ other
    have hapart : down.Pairwise Apart := hperm.symm.pairwise h.disjoint fun hab => Or.symm hab
    refine (hsorted.and hapart).imp_of_mem fun {a b} ha _ hab => hab.2.resolve_left fun hlt => ?_
    have := (hfits a ha).proper
    exact absurd hab.1 (by omega)
  obtain ⟨hchain, htotal⟩ := chain_of_family hc.sorted hc.floor hfits hdesc
    (m := c.n) fun r _ => indices_le hc.sorted r
  have hlen : (down.map (indices c)).length ≤ rangeSlots := by
    rw [List.length_map, hperm.length_eq]
    exact h.few
  calc ((layer c rangeSlots).next.read c.n).worth
      ≤ Chains.total c.cost (down.map (indices c)) :=
        (layer_best c rangeSlots le_rfl).least _ hchain hlen
    _ ≤ familyWorth c down := htotal
    _ = familyWorth c other := (hperm.map _).sum_eq
    _ = _ := (hc.familyWorth h.disjoint).symm

/-- A score is told by its worth. -/
theorem worth_inj {a : Score} {hits size rank : Int} (h : point hits size rank = a.worth) :
    a.hits = hits ∧ a.size = size ∧ a.rank = rank := by
  have hpair : (-hits, (size, rank)) = (-a.hits, (a.size, a.rank)) := h
  simp only [Prod.mk.injEq, neg_inj] at hpair
  exact ⟨hpair.1.symm, hpair.2.1.symm, hpair.2.2.symm⟩

/-- The order of worths is the comparison of scores that the program makes. -/
theorem worth_le {a : Score} {hits size rank : Int} (h : a.worth ≤ point hits size rank) :
    hits < a.hits ∨ hits = a.hits ∧ (a.size < size ∨ a.size = size ∧ a.rank ≤ rank) := by
  rw [Score.worth, point, Prod.Lex.toLex_le_toLex, Prod.Lex.toLex_le_toLex] at h
  simp only at h
  omega

/-- The profile of the columns of a list of touches is a best one. -/
theorem profile_best (hc : c.Of touched) (minUtilization : Rat) :
    Best touched c.percent (profile c minUtilization) (listed c) := by
  obtain ⟨hhits, hsize, hrank⟩ := worth_inj (listed_worth hc)
  refine ⟨listed_family hc, ?_, listed_usedBefore hc, hhits, hsize, hrank, fun other h => ?_⟩
  · rw [listed, List.map_map, List.length_map]
    rfl
  · exact worth_le (family_le hc h)

/-- A percentage survives the division and the rounding. -/
theorem round_percent {percent : Int} : round ((percent : Rat) / 100 * 100) = percent := by
  rw [round, div_mul_cancel₀ _ (by norm_num), Int.floor_eq_iff]
  constructor <;> linarith

/-- **The ranges are the best.**  Every list of units below `2 ^ 24` and every whole percentage
gives a family in the order of first use, padded to 32 slots, with its own totals, and no family
of at most 32 disjoint ranges above the floor covers more units, or as many with fewer downloaded,
or those with earlier touches. -/
theorem selectBootRanges_best {touched : List Int} (hunits : ∀ u ∈ touched, 0 ≤ u ∧ u < 2 ^ 24)
    {percent : Int} (hp : 1 ≤ percent ∧ percent ≤ 100) :
    ∃ profile chosen, selectBootRanges touched (percent / 100) = .ok profile ∧
      Best touched percent profile chosen := by
  obtain ⟨ranks, hall, htouched⟩ := touchAll_touched touched_nil hunits
  rw [List.nil_append] at htouched
  have hc := htouched.columns (show 0 < percent by omega)
  refine ⟨_, _, ?_, profile_best hc (percent / 100)⟩
  rw [selectBootRanges, round_percent, if_neg, hall]
  rw [sub_self, abs_zero]
  rintro (h | h | h)
  · omega
  · omega
  · norm_num at h

/-- Five reads of four units: the best choice is found. -/
theorem demo_best : ∃ profile chosen,
    selectBootRanges [8, 9, 20, 8, 10] ((50 : Int) / 100) = .ok profile ∧
      Best [8, 9, 20, 8, 10] 50 profile chosen :=
  selectBootRanges_best (by decide) (by decide)

/-! ## §9. Where the ranges lie. -/

/-- Merging makes no new bounds. -/
theorem foldl_mergeNext_bounds {p q : Int → Prop} {rest : List (Int × Int)} :
    ∀ {merged : List (Int × Int)}, (∀ r ∈ merged ++ rest, p r.1 ∧ q r.2) →
      ∀ r ∈ rest.foldl mergeNext merged, p r.1 ∧ q r.2 := by
  induction rest with
  | nil =>
    intro merged h
    rwa [List.append_nil] at h
  | cons range rest ih =>
    intro merged h
    refine ih fun r hr => ?_
    have hrange := h range (by simp)
    rcases List.mem_append.mp hr with hr | hr
    · unfold mergeNext at hr
      cases hlast : merged.getLast? with
      | none =>
        rw [hlast] at hr
        exact h r (by simp only [List.mem_append, List.mem_cons, List.not_mem_nil] at hr ⊢; tauto)
      | some last =>
        have hmem : last ∈ merged := List.mem_of_getLast? hlast
        rw [hlast] at hr
        dsimp only at hr
        split at hr
        · rcases List.mem_append.mp hr with hr | hr
          · exact h r (List.mem_append_left _ (List.mem_of_mem_dropLast hr))
          · obtain rfl := List.mem_singleton.mp hr
            exact ⟨(h last (List.mem_append_left _ hmem)).1, hrange.2⟩
        · exact h r (by simp only [List.mem_append, List.mem_cons, List.not_mem_nil] at hr ⊢; tauto)
    · exact h r (by simp [hr])

/-- A range that is listed starts and ends at a unit that was touched. -/
theorem listed_bounds {bound : Int} (hpos : 0 < bound) (hunits : ∀ u ∈ c.units, 0 ≤ u ∧ u < bound) :
    ∀ r ∈ listed c, 0 ≤ r.1 ∧ r.2 < bound := by
  have hunit : ∀ i, 0 ≤ c.unit i ∧ c.unit i < bound := by
    intro i
    by_cases hi : i < c.units.length
    · rw [Columns.unit, List.getD_eq_getElem _ _ hi]
      exact hunits _ (List.getElem_mem hi)
    · rw [Columns.unit, List.getD_eq_default _ _ (by omega)]
      exact ⟨le_rfl, hpos⟩
  intro r hr
  rw [(listed_perm c).mem_iff, merge] at hr
  refine foldl_mergeNext_bounds (p := fun x => 0 ≤ x) (q := fun x => x < bound) (fun r hr => ?_) r hr
  rw [List.nil_append, sortRanges, (List.perm_insertionSort _ _).mem_iff, selected] at hr
  obtain ⟨r, -, rfl⟩ := List.mem_map.mp hr
  exact ⟨(hunit _).1, (hunit _).2⟩

/-- **What is selected lies where the touches do**, and the touches are counted. -/
theorem selectBootRanges_within {bound : Int} (hpos : 0 < bound) (hbound : bound ≤ 2 ^ 24)
    (hunits : ∀ u ∈ touched, 0 ≤ u ∧ u < bound) {minUtilization : Rat} {profile : Profile}
    (h : selectBootRanges touched minUtilization = .ok profile) :
    profile.minUtilization = minUtilization ∧ profile.observedUnits = touched.dedup.length ∧
      ∀ r, some r ∈ profile.ranges → 0 ≤ r.1 ∧ r.2 < bound := by
  have hvalid : ∀ u ∈ touched, 0 ≤ u ∧ u < 2 ^ 24 := by
    intro u hu
    have := hunits u hu
    omega
  obtain ⟨ranks, hall, htouched⟩ := touchAll_touched touched_nil hvalid
  rw [List.nil_append] at htouched
  unfold selectBootRanges at h
  rw [hall] at h
  dsimp only at h
  split at h
  · cases h
  next hpercent =>
    injection h with h
    subst h
    have hc := htouched.columns (show 0 < round (minUtilization * 100) by omega)
    have hlisted := listed_bounds hpos fun u hu =>
      hunits u (List.mem_dedup.mp (hc.perm.mem_iff.mp hu))
    refine ⟨rfl, hc.perm.length_eq, fun r hr => hlisted r ?_⟩
    rcases List.mem_append.mp hr with hr | hr
    · obtain ⟨d, hd, heq⟩ := List.mem_map.mp hr
      obtain rfl := Option.some.inj heq
      exact List.mem_map_of_mem hd
    · cases List.eq_of_mem_replicate hr

end Optimum

end My98.Disk.RangeProfile
