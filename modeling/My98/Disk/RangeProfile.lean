/-
  My98.Disk.RangeProfile — which ranges of a disk to read ahead at startup.

  `selectBootRanges` picks at most 32 disjoint ranges of 64 KiB units, each with enough observed
  units inside.  It is a dynamic program with one layer for each range; the inner maximum is read
  from a Fenwick tree over transformed keys, in which a start is compared by what is left of its
  score when everything that all starts share is taken away.  The ranges are then read back from
  the recorded choices, and adjacent ones merged.

  The typed arrays that the code fills in a loop are `Cells`; no index is ever out of range.  Numbers below `2 ^ 53` are exact in the source, so the scores are
  integers; `minUtilization` is a rational.
-/
import Mathlib
import My98.Lib.Chains
import My98.Lib.Fenwick

namespace My98.Disk.RangeProfile

open My98.Lib
open My98.Lib.Fenwick (Cells)

/-! ## §1. The code. -/

/-- The constant `RANGE_SLOTS`. -/
def rangeSlots : Nat := 32

/-- What a family of ranges is worth: `hits`, `size` and `rank` of one index. -/
structure Score where
  hits : Int
  size : Int
  rank : Int
  deriving DecidableEq, Repr

def better (a b : Score) : Bool :=
  a.hits > b.hits ||
    a.hits == b.hits && (a.size < b.size || a.size == b.size && a.rank < b.rank)

/-- The loop of `bound`, `mid = (lo+hi)>>>1`. -/
def search (values : List Int) (x : Int) (inclusive : Bool) (lo hi : Nat) : Nat :=
  if lo < hi then
    let mid := (lo + hi) / 2
    if values.getD mid 0 < x ∨ inclusive = true ∧ values.getD mid 0 = x then
      search values x inclusive (mid + 1) hi
    else
      search values x inclusive lo mid
  else lo
termination_by hi - lo

def bound (values : List Int) (x : Int) (inclusive : Bool) : Nat :=
  search values x inclusive 0 values.length

/-- The map `ranks`, in insertion order. -/
abbrev Ranks := List (Int × Nat)

def Ranks.get (ranks : Ranks) (unit : Int) : Nat := (List.lookup unit ranks).getD 0

/-- One turn of the loop over `firstTouchUnits`. -/
def touch (ranks : Ranks) (unit : Int) : Except String Ranks :=
  if unit < 0 ∨ unit ≥ 2 ^ 24 then .error "Invalid 64 KiB unit"
  else if (List.lookup unit ranks).isSome then .ok ranks
  else .ok (ranks ++ [(unit, ranks.length)])

def touchAll : Ranks → List Int → Except String Ranks
  | ranks, [] => .ok ranks
  | ranks, unit :: rest =>
    match touch ranks unit with
    | .error e => .error e
    | .ok ranks' => touchAll ranks' rest

def sortUnits (values : List Int) : List Int := values.insertionSort (· ≤ ·)

/-- The columns the layers read. -/
structure Columns where
  percent : Int
  ranks : Ranks
  /-- Sorted. -/
  units : List Int
  deriving Repr

namespace Columns

variable (c : Columns)

def n : Nat := c.units.length

def unit (i : Nat) : Int := c.units.getD i 0

def rankPrefix : Nat → Int
  | 0 => 0
  | i + 1 => rankPrefix i + c.ranks.get (c.unit i)

/-- Range `[i, j)` is valid iff `100*i-percent*units[i] <= 100*j-percent*(units[j-1]+1)`. -/
def key (i : Nat) : Int := 100 * i - c.percent * c.unit i

def keys : List Int := (List.range c.n).map c.key

def sorted : List Int := sortUnits c.keys.dedup

def position (i : Nat) : Nat := bound c.sorted (c.key i) false + 1

/-- The key that the start of a range ending before `j` must not exceed. -/
def limit (j : Nat) : Int := 100 * j - c.percent * (c.unit (j - 1) + 1)

/-- What a start is compared by. -/
def relative (score : Cells Score) (a : Nat) : Score :=
  { hits := (score.read a).hits - a, size := (score.read a).size - c.unit a,
    rank := (score.read a).rank - c.rankPrefix a }

def wins (score : Cells Score) (a : Nat) : Option Nat → Bool
  | none => true
  | some b => better (c.relative score a) (c.relative score b)

/-- The score of the best family before `start` and the range `[start, j)`. -/
def extended (score : Cells Score) (start j : Nat) : Score :=
  { hits := (score.read start).hits + j - start,
    size := (score.read start).size + c.unit (j - 1) - c.unit start + 1,
    rank := (score.read start).rank + c.rankPrefix j - c.rankPrefix start }

end Columns

/-- `nextHits`, `nextSize` and `nextRank`, with `pick` and `tree`. -/
structure Layer where
  next : Cells Score
  pick : Cells (Option Nat)
  tree : Cells (Option Nat)

def Layer.new : Layer :=
  { next := .fill ⟨0, 0, 0⟩, pick := .fill none, tree := .fill none }

/-- One turn of the loop over `j`. -/
def Layer.turn (c : Columns) (score : Cells Score) (l : Layer) (j : Nat) : Layer :=
  let i := j - 1
  let wins := c.wins score
  let tree := Fenwick.insert wins (c.sorted.length + 1) l.tree (c.position i) i
  let next := l.next.write j (l.next.read (j - 1))
  match Fenwick.best wins tree (bound c.sorted (c.limit j) true) with
  | none => { next, pick := l.pick, tree }
  | some start =>
    let extended := c.extended score start j
    if better extended (next.read j) then
      { next := next.write j extended, pick := l.pick.write j (some start), tree }
    else { next, pick := l.pick, tree }

/-- The loop over `j`, up to and with `j`. -/
def Layer.upTo (c : Columns) (score : Cells Score) : Nat → Layer
  | 0 => Layer.new
  | j + 1 => (Layer.upTo c score j).turn c score (j + 1)

/-- The arrays after so many slots. -/
def layer (c : Columns) : Nat → Layer
  | 0 => Layer.new
  | slot + 1 => Layer.upTo c (layer c slot).next c.n

/-- What `choices` holds for the slot. -/
def choices (c : Columns) (slot : Nat) : Cells (Option Nat) := (layer c (slot + 1)).pick

/-- The loop that reads the choices back: `slots` is one more than `slot`, and a range is a pair of
indices, the second one past its end. -/
def selectedFrom (choices : Nat → Cells (Option Nat)) : Nat → Nat → List (Nat × Nat)
  | 0, _ => []
  | _ + 1, 0 => []
  | slot + 1, j + 1 =>
    match (choices slot).read (j + 1) with
    | none => selectedFrom choices (slot + 1) j
    | some start => (start, j + 1) :: selectedFrom choices slot start
termination_by slots j => (slots, j)

/-- The ranges in the order they are pushed. -/
def selected (c : Columns) : List (Int × Int) :=
  (selectedFrom (choices c) rangeSlots c.n).map fun r => (c.unit r.1, c.unit (r.2 - 1))

def sortRanges (ranges : List (Int × Int)) : List (Int × Int) :=
  ranges.insertionSort fun a b => a.1 ≤ b.1

def mergeNext (merged : List (Int × Int)) (range : Int × Int) : List (Int × Int) :=
  match merged.getLast? with
  | none => merged ++ [range]
  | some last =>
    if last.2 + 1 = range.1 then merged.dropLast ++ [(last.1, range.2)] else merged ++ [range]

def merge (ranges : List (Int × Int)) : List (Int × Int) :=
  (sortRanges ranges).foldl mergeNext []

/-- `Infinity` is `⊤`. -/
structure Detail where
  start : Int
  stop : Int
  used : Nat
  utilization : Rat
  firstUse : WithTop Nat
  deriving DecidableEq

def detail (c : Columns) (range : Int × Int) : Detail :=
  let observed := c.units.filter fun unit => unit ≥ range.1 ∧ unit ≤ range.2
  { start := range.1
    stop := range.2
    used := observed.length
    utilization := observed.length / (range.2 - range.1 + 1)
    firstUse := observed.foldl (fun first unit => min first (c.ranks.get unit : WithTop Nat)) ⊤ }

/-- `a.firstUse-b.firstUse || a.start-b.start` is not positive. -/
def Detail.before (a b : Detail) : Prop :=
  a.firstUse < b.firstUse ∨ a.firstUse = b.firstUse ∧ a.start ≤ b.start

instance (a b : Detail) : Decidable (a.before b) :=
  inferInstanceAs (Decidable (_ ∨ _ ∧ _))

def details (c : Columns) : List Detail :=
  ((merge (selected c)).map (detail c)).insertionSort Detail.before

structure Profile where
  ranges : List (Option (Int × Int))
  minUtilization : Rat
  observedUnits : Nat
  coveredUnits : Int
  downloadUnits : Int
  rankSum : Int
  details : List Detail

/-- What is returned once the layers are done. -/
def profile (c : Columns) (minUtilization : Rat) : Profile :=
  let score := (layer c rangeSlots).next.read c.n
  let details := details c
  { ranges := details.map (fun r => some (r.start, r.stop)) ++
      List.replicate (rangeSlots - details.length) none
    minUtilization
    observedUnits := c.n
    coveredUnits := score.hits
    downloadUnits := score.size
    rankSum := score.rank
    details }

/-- `Math.round`. -/
def round (x : Rat) : Int := ⌊x + 1 / 2⌋

def selectBootRanges (firstTouchUnits : List Int) (minUtilization : Rat) : Except String Profile :=
  let percent := round (minUtilization * 100)
  if percent < 1 ∨ percent > 100 ∨ |(percent : Rat) / 100 - minUtilization| > 1 / 10 ^ 9 then
    .error "Utilization must be a whole percentage from 1 to 100"
  else
    match touchAll [] firstTouchUnits with
    | .error e => .error e
    | .ok ranks =>
      .ok (profile { percent, ranks, units := sortUnits (ranks.map Prod.fst) } minUtilization)

/-! ## §2. Scores are ordered. -/

/-- Scores are compared like these triples, and `better` is less. -/
abbrev Worth := ℤ ×ₗ (ℤ ×ₗ ℤ)

def Score.worth (a : Score) : Worth := toLex (-a.hits, toLex (a.size, a.rank))

theorem better_iff (a b : Score) : better a b = true ↔ a.worth < b.worth := by
  simp only [better, Score.worth, Prod.Lex.toLex_lt_toLex, Bool.or_eq_true, Bool.and_eq_true,
    decide_eq_true_eq, beq_iff_eq, neg_lt_neg_iff, neg_inj, gt_iff_lt]

/-- What the three arrays hold, as a point. -/
def point (hits size rank : Int) : Worth := toLex (-hits, toLex (size, rank))

theorem point_add (a b c a' b' c' : Int) :
    point a b c + point a' b' c' = point (a + a') (b + b') (c + c') := by
  show point a b c + point a' b' c' = toLex (-(a + a'), toLex (b + b', c + c'))
  rw [neg_add]
  rfl

namespace Columns

variable (c : Columns)

/-- What the range `[i, j)` adds. -/
def cost (i j : Nat) : Worth :=
  point (j - i) (c.unit (j - 1) - c.unit i + 1) (c.rankPrefix j - c.rankPrefix i)

/-- Enough of the range `[i, j)` is observed. -/
def ok (i j : Nat) : Prop := c.key i ≤ c.limit j

theorem worth_extended (score : Cells Score) (start j : Nat) :
    (c.extended score start j).worth = (score.read start).worth + c.cost start j := by
  show point _ _ _ = point _ _ _ + point _ _ _
  rw [point_add]
  congr 1 <;> simp only [extended] <;> ring

/-- **All starts of a range that ends at `j` are compared alike**: what they share is taken away. -/
theorem worth_relative (score : Cells Score) (a j : Nat) :
    (score.read a).worth + c.cost a j =
      (c.relative score a).worth + point j (c.unit (j - 1) + 1) (c.rankPrefix j) := by
  show point _ _ _ + point _ _ _ = point _ _ _ + point _ _ _
  rw [point_add, point_add]
  congr 1 <;> simp only [relative] <;> ring

theorem wins_compares (score : Cells Score) :
    Fenwick.Compares (fun a => (c.relative score a).worth) (c.wins score) :=
  ⟨fun _ => rfl, fun _ _ => better_iff _ _⟩

end Columns

/-! ## §3. The binary search. -/

/-- What `bound` counts. -/
def Before (values : List Int) (x : Int) (inclusive : Bool) (k : Nat) : Prop :=
  values.getD k 0 < x ∨ inclusive = true ∧ values.getD k 0 = x

theorem getD_lt {values : List Int} (hs : values.Pairwise (· < ·)) {i j : Nat} (hij : i < j)
    (hj : j < values.length) : values.getD i 0 < values.getD j 0 := by
  rw [List.getD_eq_getElem _ _ hj, List.getD_eq_getElem _ _ (hij.trans hj)]
  exact List.pairwise_iff_getElem.mp hs i j _ hj hij

theorem Before.down {values : List Int} (hs : values.Pairwise (· < ·)) {x : Int} {inclusive : Bool}
    {i j : Nat} (hij : i ≤ j) (hj : j < values.length) (h : Before values x inclusive j) :
    Before values x inclusive i := by
  obtain rfl | hlt := Nat.eq_or_lt_of_le hij
  · exact h
  · have hless := getD_lt hs hlt hj
    cases h with
    | inl hx => exact .inl (hless.trans hx)
    | inr hx => exact .inl (hx.2 ▸ hless)

/-- **The search splits the array.** -/
theorem search_spec {values : List Int} (hs : values.Pairwise (· < ·)) (x : Int) (inclusive : Bool)
    (lo hi : Nat) (hlo : ∀ k < lo, Before values x inclusive k)
    (hhi : ∀ k, hi ≤ k → k < values.length → ¬Before values x inclusive k)
    (hle : lo ≤ hi) (hlen : hi ≤ values.length) :
    search values x inclusive lo hi ≤ values.length ∧
      ∀ k < values.length, k < search values x inclusive lo hi ↔ Before values x inclusive k := by
  fun_induction search values x inclusive lo hi with
  | case1 lo hi hlt mid hbefore ih =>
    refine ih (fun k hk => ?_) hhi (by omega) hlen
    exact Before.down hs (by omega) (by omega) hbefore
  | case2 lo hi hlt mid hafter ih =>
    refine ih hlo (fun k hk hlen' hb => ?_) (by omega) (by omega)
    exact hafter (Before.down hs hk hlen' hb)
  | case3 lo hi hdone =>
    refine ⟨by omega, fun k hk => ⟨hlo k, fun hb => ?_⟩⟩
    by_contra hnot
    exact hhi k (by omega) hk hb

theorem bound_spec {values : List Int} (hs : values.Pairwise (· < ·)) (x : Int)
    (inclusive : Bool) :
    bound values x inclusive ≤ values.length ∧
      ∀ k < values.length, k < bound values x inclusive ↔ Before values x inclusive k :=
  search_spec hs x inclusive 0 values.length (fun k hk => absurd hk (Nat.not_lt_zero k))
    (fun k hk hk' => absurd hk' (by omega)) (Nat.zero_le _) le_rfl

/-- A number of the array is found. -/
theorem bound_self {values : List Int} (hs : values.Pairwise (· < ·)) {k : Nat}
    (hk : k < values.length) : bound values (values.getD k 0) false = k := by
  obtain ⟨hle, hspec⟩ := bound_spec hs (values.getD k 0) false
  apply Nat.le_antisymm
  · by_contra hgt
    have hbefore := (hspec k hk).mp (by omega)
    cases hbefore with
    | inl h => exact lt_irrefl _ h
    | inr h => cases h.1
  · by_contra hlt
    have hless := getD_lt hs (show bound values (values.getD k 0) false < k by omega) hk
    exact lt_irrefl _ ((hspec _ (by omega)).mpr (.inl hless))

theorem sortUnits_sorted {values : List Int} (h : values.Nodup) :
    (sortUnits values).Pairwise (· < ·) := by
  have hle : (sortUnits values).Pairwise (· ≤ ·) := List.pairwise_insertionSort _ values
  have hne : (sortUnits values).Pairwise (· ≠ ·) :=
    (List.perm_insertionSort (· ≤ ·) values).symm.nodup h
  exact List.Pairwise.imp₂ (fun _ _ hab hn => lt_of_le_of_ne hab hn) hle hne

namespace Columns

variable (c : Columns)

theorem sorted_pairwise : c.sorted.Pairwise (· < ·) := sortUnits_sorted (List.nodup_dedup _)

theorem key_mem {i : Nat} (hi : i < c.n) : c.key i ∈ c.sorted := by
  refine (List.mem_insertionSort _).mpr (List.mem_dedup.mpr (List.mem_map.mpr ⟨i, ?_, rfl⟩))
  exact List.mem_range.mpr hi

/-- **The query reads exactly the starts that give the range enough observed units.** -/
theorem position_le_iff {i : Nat} (hi : i < c.n) (j : Nat) :
    c.position i ≤ bound c.sorted (c.limit j) true ↔ c.ok i j := by
  obtain ⟨k, hk, heq⟩ := List.mem_iff_getElem.mp (c.key_mem hi)
  have hget : c.sorted.getD k 0 = c.key i := (List.getD_eq_getElem _ _ hk).trans heq
  have hpos : c.position i = k + 1 := by
    rw [position, ← hget, bound_self c.sorted_pairwise hk]
  rw [hpos, Nat.succ_le_iff, (bound_spec c.sorted_pairwise (c.limit j) true).2 k hk, Before, hget,
    ok]
  constructor
  · rintro (hlt | ⟨-, heq⟩)
    · exact le_of_lt hlt
    · exact le_of_eq heq
  · intro hle
    exact (lt_or_eq_of_le hle).imp id fun h => ⟨rfl, h⟩

end Columns

/-! ## §4. A layer. -/

/-- What the arrays of a layer hold after the turns up to `j`, where those of the layer before it
hold the best scores of at most `k` ranges. -/
structure LayerInv (c : Columns) (k : Nat) (score : Cells Score) (l : Layer) (j : Nat) : Prop where
  best : ∀ a ≤ j, Chains.IsBest c.ok c.cost (k + 1) a (l.next.read a).worth
  recorded : Chains.Recorded c.ok c.cost (fun a => (score.read a).worth)
    (fun a => (l.next.read a).worth) l.pick.read j
  tree : Fenwick.Holds (fun a => (c.relative score a).worth) (c.sorted.length + 1)
    (fun a p => a < j ∧ p = c.position a) l.tree
  ahead : ∀ a, j < a → l.pick.read a = none

theorem layerInv_new (c : Columns) (k : Nat) (score : Cells Score) :
    LayerInv c k score Layer.new 0 where
  best := by
    intro a ha
    obtain rfl := Nat.le_zero.mp ha
    exact Chains.isBest_start (k + 1)
  recorded := ⟨fun j hj => absurd hj (Nat.not_lt_zero j), fun j hj => absurd hj (Nat.not_lt_zero j)⟩
  tree := ⟨fun _ _ h => (by cases h), fun _ _ h => absurd h.1 (Nat.not_lt_zero _)⟩
  ahead := fun _ _ => rfl

/-- What the arrays of the next turn have to do with those before it: only the cell of the new end
is written. -/
theorem LayerInv.extend {c : Columns} {k : Nat} {score : Cells Score} {l l' : Layer} {j : Nat}
    (h : LayerInv c k score l j)
    (hnext : ∀ a ≤ j, l'.next.read a = l.next.read a)
    (hpick : ∀ a, a ≠ j + 1 → l'.pick.read a = l.pick.read a)
    (hbest : Chains.IsBest c.ok c.cost (k + 1) (j + 1) (l'.next.read (j + 1)).worth)
    (hskip : l'.pick.read (j + 1) = none → l'.next.read (j + 1) = l.next.read j)
    (htake : ∀ s, l'.pick.read (j + 1) = some s → s ≤ j ∧ c.ok s (j + 1) ∧
      l'.next.read (j + 1) = c.extended score s (j + 1))
    (htree : Fenwick.Holds (fun a => (c.relative score a).worth) (c.sorted.length + 1)
      (fun a p => a < j + 1 ∧ p = c.position a) l'.tree) :
    LayerInv c k score l' (j + 1) where
  best := by
    intro a ha
    obtain rfl | hlt := Nat.eq_or_lt_of_le ha
    · exact hbest
    · rw [hnext a (Nat.le_of_lt_succ hlt)]
      exact h.best a (Nat.le_of_lt_succ hlt)
  recorded := by
    apply h.recorded.extend (fun a ha => by rw [hnext a ha]) (fun a ha => hpick a (by omega))
    · exact fun hnone => congrArg Score.worth (hskip hnone)
    · intro s hs
      obtain ⟨hle, hok, heq⟩ := htake s hs
      exact ⟨hle, hok, by rw [heq, c.worth_extended]⟩
  tree := htree
  ahead := fun a ha => (hpick a (by omega)).trans (h.ahead a (by omega))

/-- The start that is found is the best one for a range that ends at `j + 1`. -/
theorem start_best {c : Columns} {score : Cells Score} {tree : Cells (Option Nat)} {j : Nat}
    (hj : j < c.n)
    (h : Fenwick.Holds (fun a => (c.relative score a).worth) (c.sorted.length + 1)
      (fun a p => a < j + 1 ∧ p = c.position a) tree) :
    let start := Fenwick.best (c.wins score) tree (bound c.sorted (c.limit (j + 1)) true)
    (∀ s, start = some s → s ≤ j ∧ c.ok s (j + 1)) ∧
      ∀ i ≤ j, c.ok i (j + 1) → ∃ s, start = some s ∧
        (score.read s).worth + c.cost s (j + 1) ≤ (score.read i).worth + c.cost i (j + 1) := by
  have hwins := c.wins_compares score
  refine ⟨fun s hs => ?_, fun i hi hok => ?_⟩
  · obtain ⟨p, ⟨hlt, rfl⟩, hle⟩ := h.best_mem hwins hs
    exact ⟨by omega, (c.position_le_iff (by omega) (j + 1)).mp hle⟩
  · have hle := (c.position_le_iff (show i < c.n by omega) (j + 1)).mpr hok
    have hsize := (bound_spec c.sorted_pairwise (c.limit (j + 1)) true).1
    obtain ⟨s, hs, hbetter⟩ := h.best_le hwins ⟨Nat.lt_succ_of_le hi, rfl⟩
      (Nat.succ_pos _) hle (Nat.lt_succ_of_le hsize)
    refine ⟨s, hs, ?_⟩
    rw [c.worth_relative score s, c.worth_relative score i]
    gcongr

/-- **One turn keeps the invariant.** -/
theorem LayerInv.turn {c : Columns} {k : Nat} {score : Cells Score} {l : Layer} {j : Nat}
    (h : LayerInv c k score l j) (hj : j < c.n)
    (hbefore : ∀ a ≤ c.n, Chains.IsBest c.ok c.cost k a (score.read a).worth) :
    LayerInv c k score (l.turn c score (j + 1)) (j + 1) := by
  -- Column `j` enters the tree, so that it has all columns up to `j`.
  have htree : Fenwick.Holds (fun a => (c.relative score a).worth) (c.sorted.length + 1)
      (fun a p => a < j + 1 ∧ p = c.position a)
      (Fenwick.insert (c.wins score) (c.sorted.length + 1) l.tree (c.position j) j) := by
    apply (h.tree.insert (c.wins_compares score) j (c.position j)).congr
    intro a p
    constructor
    · rintro (⟨hlt, rfl⟩ | ⟨rfl, rfl⟩)
      · exact ⟨by omega, rfl⟩
      · exact ⟨by omega, rfl⟩
    · rintro ⟨hlt, rfl⟩
      obtain rfl | hlt' := Nat.eq_or_lt_of_le (Nat.le_of_lt_succ hlt)
      · exact .inr ⟨rfl, rfl⟩
      · exact .inl ⟨hlt', rfl⟩
  have hnow := h.best j le_rfl
  have hv : ∀ i ≤ j, Chains.IsBest c.ok c.cost k i (score.read i).worth :=
    fun i hi => hbefore i (by omega)
  obtain ⟨hsound, hleast⟩ := start_best hj htree
  have hkept : ∀ a ≤ j, (l.next.write (j + 1) (l.next.read j)).read a = l.next.read a :=
    fun a ha => Cells.read_write_of_ne _ _ (by omega)
  simp only [Layer.turn, Nat.add_sub_cancel]
  cases hstart : Fenwick.best (c.wins score)
      (Fenwick.insert (c.wins score) (c.sorted.length + 1) l.tree (c.position j) j)
      (bound c.sorted (c.limit (j + 1)) true) with
  -- No start is allowed: the best choice up to `j + 1` is the one up to `j`.
  | none =>
    dsimp only
    apply h.extend
    · exact hkept
    · exact fun a _ => rfl
    · rw [Cells.read_write_self]
      apply Chains.isBest_skip hnow hv
      intro i hi hok
      obtain ⟨s, hs, -⟩ := hleast i hi hok
      rw [hstart] at hs
      cases hs
    · exact fun _ => Cells.read_write_self _ _ _
    · intro s hs
      rw [h.ahead (j + 1) (Nat.lt_succ_self j)] at hs
      cases hs
    · exact htree
  | some start =>
    -- The start that the tree returns is the best of those that are allowed.
    have hbest : ∀ i ≤ j, c.ok i (j + 1) →
        (score.read start).worth + c.cost start (j + 1) ≤
          (score.read i).worth + c.cost i (j + 1) := by
      intro i hi hok
      obtain ⟨s, hs, hle⟩ := hleast i hi hok
      obtain rfl := Option.some.inj (hstart.symm.trans hs)
      exact hle
    obtain ⟨hle, hok⟩ := hsound start hstart
    dsimp only
    rw [Cells.read_write_self]
    -- It is taken only if it is better than not ending a range here.
    by_cases hb : better (c.extended score start (j + 1)) (l.next.read j) = true
    · rw [if_pos hb]
      rw [better_iff, c.worth_extended] at hb
      apply h.extend
      · intro a ha
        exact (Cells.read_write_of_ne _ _ (by omega)).trans (hkept a ha)
      · exact fun a ha => Cells.read_write_of_ne _ _ ha
      · rw [Cells.read_write_self, c.worth_extended]
        exact Chains.isBest_take hnow hv hle hok hbest (le_of_lt hb)
      · intro hnone
        rw [Cells.read_write_self] at hnone
        cases hnone
      · intro s hs
        rw [Cells.read_write_self] at hs ⊢
        obtain rfl := Option.some.inj hs
        exact ⟨hle, hok, rfl⟩
      · exact htree
    · rw [if_neg hb]
      rw [better_iff, c.worth_extended] at hb
      apply h.extend
      · exact hkept
      · exact fun a _ => rfl
      · rw [Cells.read_write_self]
        apply Chains.isBest_skip hnow hv
        exact fun i hi hok' => (not_lt.mp hb).trans (hbest i hi hok')
      · exact fun _ => Cells.read_write_self _ _ _
      · intro s hs
        rw [h.ahead (j + 1) (Nat.lt_succ_self j)] at hs
        cases hs
      · exact htree

theorem layerInv_upTo {c : Columns} {k : Nat} {score : Cells Score}
    (hbefore : ∀ a ≤ c.n, Chains.IsBest c.ok c.cost k a (score.read a).worth) {j : Nat}
    (hj : j ≤ c.n) : LayerInv c k score (Layer.upTo c score j) j := by
  induction j with
  | zero => exact layerInv_new c k score
  | succ j ih => exact (ih (by omega)).turn hj hbefore

/-! ## §5. All layers. -/

/-- **After `k` slots each cell holds the best score of at most `k` ranges.** -/
theorem layer_best (c : Columns) (k : Nat) {a : Nat} (ha : a ≤ c.n) :
    Chains.IsBest c.ok c.cost k a ((layer c k).next.read a).worth := by
  induction k generalizing a with
  | zero => exact Chains.isBest_none a
  | succ k ih => exact (layerInv_upTo (fun a ha => ih ha) le_rfl).best a ha

theorem choices_recorded (c : Columns) (k : Nat) :
    Chains.Recorded c.ok c.cost (fun a => ((layer c k).next.read a).worth)
      (fun a => ((layer c (k + 1)).next.read a).worth) (choices c k).read c.n :=
  (layerInv_upTo (fun _ ha => layer_best c k ha) le_rfl).recorded

/-- **The choices that are read back are a chain of the score reported.** -/
theorem selectedFrom_chain (c : Columns) (slots j : Nat) (hj : j ≤ c.n) :
    let chain := selectedFrom (choices c) slots j
    Chains.Chain c.ok j chain ∧ chain.length ≤ slots ∧
      Chains.total c.cost chain = ((layer c slots).next.read j).worth := by
  fun_induction selectedFrom (choices c) slots j with
  | case1 j => exact ⟨trivial, Nat.zero_le _, rfl⟩
  | case2 slot =>
    refine ⟨trivial, Nat.zero_le _, ?_⟩
    exact Chains.isBest_unique (Chains.isBest_start (slot + 1)) (layer_best c (slot + 1) hj)
  | case3 slot j hnone ih =>
    obtain ⟨hchain, hlen, htotal⟩ := ih (by omega)
    refine ⟨hchain.mono (Nat.le_succ j), hlen, htotal.trans ?_⟩
    exact ((choices_recorded c slot).skipped j hj hnone).symm
  | case4 slot j start hsome ih =>
    obtain ⟨hle, hok, hscore⟩ := (choices_recorded c slot).taken j hj start hsome
    obtain ⟨hchain, hlen, htotal⟩ := ih (by omega)
    refine ⟨⟨by dsimp only; omega, le_rfl, hok, hchain⟩, Nat.succ_le_succ hlen, ?_⟩
    rw [Chains.total_cons, htotal, hscore, add_comm]

end My98.Disk.RangeProfile
