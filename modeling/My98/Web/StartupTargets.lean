/-
  My98.Web.StartupTargets — what a startup prefetch has to fetch, counted twice
  (`src/disk/web/startup-prefetch.js`: `startupRanges`;
  `src/disk/web/torrent-window.js`: the targets and the total of `prefetchStartup`).

  The page turns the units of a profile into ranges of ciphertext and counts the bytes of their
  pieces by MERGING intervals.  The torrent window, in another process, collects the indices of
  the same pieces in a set and ADDS UP their sizes.  A startup that has verified everything
  compares the two totals, so that any difference would fail it.

  Numbers are rationals that every step keeps below 2^53, where doubles are exact
  (`My98.Disk.Layout`).

    • `startup_agreement` — for every accepted profile the ranges are the records of its units,
      the window accepts them, and the two totals are equal.
-/
import Mathlib
import My98.Disk.Layout
import My98.Lib.Intervals
import My98.Web.LoadProfiles

namespace My98.Web.Startup

open My98.Lib My98.Lib.JsonText My98.Disk My98.Torrent.Formats My98.Web.LoadProfiles
open My98.Torrent.DescriptorText (loadsBytes)

/-! ## §1. `startupRanges`. -/

/-- What `filter(Boolean)` keeps. -/
def truthy : Tree → Bool
  | .null => false
  | .bool b => b
  | .num l => decide (jsNumber (.num l) ≠ some 0)
  | .str l => !(jsString l).isEmpty
  | .arr _ => true
  | .obj _ => true

def PIECE : ℤ := 262144

/-- `[begin,end-begin]` of a range of units; `none` is the `throw`. -/
def ciphertext (diskSize : Nat) (r : ℚ × ℚ) : Option (ℚ × ℚ) :=
  let start := 198 + r.1 * (65536 + 62)
  let stop := min (diskSize : ℚ) (198 + (r.2 + 1) * (65536 + 62))
  if isSafe start = false ∨ isSafe stop = false ∨ start < 0 ∨ stop ≤ start then none
  else some (start, stop - start)

/-- The first and the last piece of a range. -/
def piecesOf (r : ℚ × ℚ) : ℤ × ℤ := (⌊r.1 / 262144⌋, ⌊(r.1 + r.2 - 1) / 262144⌋)

/-- `Math.min(diskSize,(last+1)*PIECE)-first*PIECE`. -/
def intervalBytes (diskSize : Nat) (x : ℤ × ℤ) : ℤ :=
  min (diskSize : ℤ) ((x.2 + 1) * PIECE) - x.1 * PIECE

def startupRanges (profile : Tree) (diskSize : Nat) : Option (List (ℚ × ℚ) × ℤ) := do
  let slots ← (prop profile "ranges").bind list?
  let pairs ← (slots.filter truthy).mapM jsPair
  let ranges ← pairs.mapM (ciphertext diskSize)
  let intervals := (ranges.map piecesOf).insertionSort fun a b => a.1 ≤ b.1
  return (ranges, ((mergeIntervals intervals).map (intervalBytes diskSize)).sum)

/-! ## §2. The targets of `prefetchStartup`. -/

/-- `targets.add(index)`. -/
def addTarget (targets : List ℤ) (index : ℤ) : List ℤ :=
  if index ∈ targets then targets else targets ++ [index]

/-- `for(let index=first;index<=last;index++)`. -/
def upTo (first last : ℤ) : List ℤ :=
  (List.range (last + 1 - first).toNat).map fun (k : Nat) => first + (k : ℤ)

/-- One turn of the loop over `ranges`; `none` is the `throw`. -/
def addRange (size : Nat) (targets : List ℤ) (r : ℚ × ℚ) : Option (List ℤ) :=
  if isSafe r.1 = false ∨ isSafe r.2 = false ∨ r.1 < 0 ∨ r.2 < 1 ∨ (size : ℚ) < r.1 + r.2 then none
  else some ((upTo (piecesOf r).1 (piecesOf r).2).foldl addTarget targets)

def startupTargets (ranges : List (ℚ × ℚ)) (size : Nat) : Option (List ℤ) :=
  ranges.foldlM (addRange size) []

/-- `bytes(index)`. -/
def pieceBytes (size : Nat) (index : ℤ) : ℤ := min PIECE (size - index * PIECE)

def targetTotal (size : Nat) (indices : List ℤ) : ℤ := (indices.map (pieceBytes size)).sum

/-! ## §3. The set of targets. -/

theorem mem_upTo {first last i : ℤ} : i ∈ upTo first last ↔ i ∈ pointsOf (first, last) := by
  unfold upTo
  rw [List.mem_map, mem_pointsOf]
  constructor
  · rintro ⟨k, hk, rfl⟩
    rw [List.mem_range] at hk
    omega
  · rintro ⟨hlow, hhigh⟩
    dsimp only at hlow hhigh
    exact ⟨(i - first).toNat, by rw [List.mem_range]; omega, by omega⟩

theorem addTarget_nodup {targets : List ℤ} {i : ℤ} (h : targets.Nodup) :
    (addTarget targets i).Nodup := by
  unfold addTarget
  split
  · exact h
  next hnew =>
    rw [List.nodup_append]
    refine ⟨h, List.nodup_singleton i, ?_⟩
    intro a ha b hb hab
    obtain rfl := List.mem_singleton.mp hb
    exact hnew (hab ▸ ha)

theorem mem_addTarget {targets : List ℤ} {i j : ℤ} :
    j ∈ addTarget targets i ↔ j ∈ targets ∨ j = i := by
  unfold addTarget
  split
  next hmem =>
    constructor
    · exact Or.inl
    · rintro (h | rfl)
      · exact h
      · exact hmem
  · rw [List.mem_append, List.mem_singleton]

theorem foldl_addTarget {l : List ℤ} : ∀ {targets : List ℤ}, targets.Nodup →
    (l.foldl addTarget targets).Nodup ∧
      ∀ j, j ∈ l.foldl addTarget targets ↔ j ∈ targets ∨ j ∈ l := by
  induction l with
  | nil =>
    intro targets h
    exact ⟨h, fun j => by simp⟩
  | cons i l ih =>
    intro targets h
    obtain ⟨hnodup, hmem⟩ := ih (addTarget_nodup (i := i) h)
    refine ⟨hnodup, fun j => ?_⟩
    rw [List.foldl_cons, hmem, mem_addTarget, List.mem_cons]
    tauto

/-- A range that passes the checks of the window. -/
structure Fetchable (size : Nat) (r : ℚ × ℚ) : Prop where
  safe : isSafe r.1 = true ∧ isSafe r.2 = true
  bounds : 0 ≤ r.1 ∧ 1 ≤ r.2 ∧ r.1 + r.2 ≤ size

theorem foldlM_addRange {size : Nat} : ∀ {ranges : List (ℚ × ℚ)} {targets : List ℤ},
    (∀ r ∈ ranges, Fetchable size r) → targets.Nodup →
    ∃ indices, ranges.foldlM (addRange size) targets = some indices ∧ indices.Nodup ∧
      ∀ j, j ∈ indices ↔ j ∈ targets ∨ j ∈ coveredBy (ranges.map piecesOf) := by
  intro ranges
  induction ranges with
  | nil =>
    intro targets _ h
    refine ⟨targets, rfl, h, fun j => ?_⟩
    simp [coveredBy]
  | cons r ranges ih =>
    intro targets hranges h
    obtain ⟨⟨hsafe₁, hsafe₂⟩, hlow, hlen, hbound⟩ := hranges r List.mem_cons_self
    have hadd : addRange size targets r =
        some ((upTo (piecesOf r).1 (piecesOf r).2).foldl addTarget targets) := by
      unfold addRange
      rw [if_neg]
      rw [hsafe₁, hsafe₂]
      rintro (h | h | h | h | h)
      · cases h
      · cases h
      · exact absurd h (not_lt.mpr hlow)
      · exact absurd h (not_lt.mpr hlen)
      · exact absurd h (not_lt.mpr hbound)
    obtain ⟨hnodup, hmem⟩ := foldl_addTarget (l := upTo (piecesOf r).1 (piecesOf r).2) h
    obtain ⟨indices, hrun, hnodup', hmem'⟩ :=
      ih (fun r' hr' => hranges r' (List.mem_cons_of_mem _ hr')) hnodup
    refine ⟨indices, ?_, hnodup', fun j => ?_⟩
    · rw [List.foldlM_cons, hadd]
      exact hrun
    · have hcons : j ∈ coveredBy ((r :: ranges).map piecesOf) ↔
          j ∈ pointsOf (piecesOf r) ∨ j ∈ coveredBy (ranges.map piecesOf) := Finset.mem_union
      rw [hmem', hmem, mem_upTo, hcons]
      tauto

/-- **The targets are the pieces covered**, each once. -/
theorem startupTargets_spec {size : Nat} {ranges : List (ℚ × ℚ)}
    (h : ∀ r ∈ ranges, Fetchable size r) :
    ∃ indices, startupTargets ranges size = some indices ∧ indices.Nodup ∧
      ∀ j, j ∈ indices ↔ j ∈ coveredBy (ranges.map piecesOf) := by
  obtain ⟨indices, hrun, hnodup, hmem⟩ := foldlM_addRange h List.nodup_nil
  refine ⟨indices, hrun, hnodup, fun j => ?_⟩
  rw [hmem]
  simp

/-! ## §4. The two totals. -/

/-- Pieces in a row are as many bytes as lie between their ends. -/
theorem sum_pieceBytes {size : Nat} {x : ℤ × ℤ} (hle : x.1 ≤ x.2) (hlast : x.2 * PIECE ≤ size) :
    ∑ i ∈ pointsOf x, pieceBytes size i = intervalBytes size x := by
  have hstep : ∀ i ∈ pointsOf x, pieceBytes size i =
      min (size : ℤ) ((i + 1) * PIECE) - min (size : ℤ) (i * PIECE) := by
    intro i hi
    have hi' := (mem_pointsOf.mp hi).2
    unfold pieceBytes PIECE at *
    omega
  rw [Finset.sum_congr rfl hstep]
  have htelescope := sum_telescope (fun i => min (size : ℤ) (i * PIECE))
    (show x.1 ≤ x.2 + 1 by omega)
  unfold pointsOf intervalBytes
  rw [htelescope]
  unfold PIECE at *
  omega

/-- **MergedSoFar or collected, the pieces are as many bytes.** -/
theorem totals_agree {size : Nat} {intervals : List (ℤ × ℤ)} {indices : List ℤ}
    (hbounds : ∀ x ∈ intervals, x.1 ≤ x.2 ∧ x.2 * PIECE ≤ size) (hnodup : indices.Nodup)
    (hmem : ∀ j, j ∈ indices ↔ j ∈ coveredBy intervals) :
    ((mergeIntervals (intervals.insertionSort fun a b => a.1 ≤ b.1)).map (intervalBytes size)).sum
      = targetTotal size indices := by
  set sorted := intervals.insertionSort fun a b => a.1 ≤ b.1 with hsorted
  have hperm : sorted.Perm intervals := List.perm_insertionSort _ _
  have hpairwise : sorted.Pairwise fun a b => a.1 ≤ b.1 := by
    have : Std.Total fun a b : ℤ × ℤ => a.1 ≤ b.1 := ⟨fun a b => le_total a.1 b.1⟩
    have : IsTrans (ℤ × ℤ) fun a b => a.1 ≤ b.1 := ⟨fun _ _ _ => le_trans⟩
    exact List.pairwise_insertionSort _ _
  have hproper : ∀ x ∈ sorted, x.1 ≤ x.2 := fun x hx => (hbounds x (hperm.mem_iff.mp hx)).1
  have hmerged : ∀ x ∈ mergeIntervals sorted, x.1 ≤ x.2 ∧ x.2 * PIECE ≤ size := by
    intro x hx
    obtain ⟨-, hlast, hle⟩ := mergeIntervals_bounds (p := fun _ => True) (q := fun b => b * PIECE ≤ size)
      (fun y hy => ⟨trivial, (hbounds y (hperm.mem_iff.mp hy)).2, hproper y hy⟩) x hx
    exact ⟨hle, hlast⟩
  have hset : indices.toFinset = coveredBy sorted := by
    ext j
    rw [List.mem_toFinset, hmem, coveredBy_perm hperm]
  calc ((mergeIntervals sorted).map (intervalBytes size)).sum
      = sumOver (pieceBytes size) (mergeIntervals sorted) := by
        unfold sumOver
        congr 1
        refine List.map_congr_left fun x hx => ?_
        exact (sum_pieceBytes (hmerged x hx).1 (hmerged x hx).2).symm
    _ = ∑ i ∈ coveredBy sorted, pieceBytes size i := sum_mergeIntervals hproper hpairwise
    _ = targetTotal size indices := by
        rw [← hset, List.sum_toFinset _ hnodup]
        rfl

/-! ## §5. Accepted profiles. -/

/-- What the checks of `matchingRanges` say of one range. -/
def Inside (units : ℚ) (r : ℚ × ℚ) : Prop :=
  isSafe r.1 = true ∧ isSafe r.2 = true ∧ 0 ≤ r.1 ∧ r.1 ≤ r.2 ∧ r.2 < units

/-- The slots that hold a range are the ones `filter(Boolean)` keeps. -/
theorem jsCollect_spec {units : ℚ} {slots : List Tree} {ranges : List (ℚ × ℚ)}
    (h : jsCollect units slots = some ranges) :
    (slots.filter truthy).mapM jsPair = some ranges ∧ ranges.length ≤ slots.length ∧
      ∀ r ∈ ranges, Inside units r := by
  fun_induction jsCollect units slots generalizing ranges with
  | case1 =>
    obtain rfl := Option.some.inj h
    exact ⟨rfl, le_rfl, fun r hr => by cases hr⟩
  | case2 rest ih =>
    obtain ⟨hslots, hlen, hinside⟩ := ih h
    exact ⟨hslots, hlen.trans (Nat.le_succ _), hinside⟩
  | case3 => cases h
  | case4 => cases h
  | case5 r rest _ a b hpair hvalid ih =>
    obtain ⟨tail, htail, rfl⟩ := Option.map_eq_some_iff.mp h
    obtain ⟨hslots, hlen, hinside⟩ := ih htail
    have htruthy : truthy r = true := by
      cases r with
      | arr items => rfl
      | _ => cases hpair
    have hr : Inside units (a, b) := by
      simp only [not_or, not_lt, ge_iff_le, not_le, Bool.not_eq_false] at hvalid
      exact ⟨hvalid.1, hvalid.2.1, hvalid.2.2.1, hvalid.2.2.2.1, hvalid.2.2.2.2⟩
    refine ⟨?_, Nat.succ_le_succ hlen, ?_⟩
    · rw [List.filter_cons_of_pos htruthy, List.mapM_cons, hpair, hslots]
      rfl
    · intro r' hr'
      rcases List.mem_cons.mp hr' with rfl | hr'
      · exact hr
      · exact hinside r' hr'

/-- A safe integer that is not negative is a natural number. -/
theorem natural_of_isSafe {d : ℚ} (hsafe : isSafe d = true) (hpos : 0 ≤ d) :
    ∃ n : Nat, d = (n : ℚ) := by
  rw [isSafe, decide_eq_true_eq] at hsafe
  refine ⟨⌊d⌋.toNat, ?_⟩
  have hfloor : ((⌊d⌋.toNat : ℤ) : ℚ) = ⌊d⌋ := by
    rw [Int.toNat_of_nonneg (Int.floor_nonneg.mpr hpos)]
  rw [← hsafe.1]
  exact_mod_cast hfloor.symm

def toRational (u : Nat × Nat) : ℚ × ℚ := ((u.1 : ℚ), (u.2 : ℚ))

/-- The ranges of an accepted profile are natural numbers, in order and on the disk. -/
theorem naturals_of_inside {size : Nat} : ∀ {ranges : List (ℚ × ℚ)},
    (∀ r ∈ ranges, Inside (sizeUnits size) r) →
    ∃ us : List (Nat × Nat), ranges = us.map toRational ∧
      ∀ u ∈ us, u.1 ≤ u.2 ∧ u.2 < chunkCount size := by
  have hunits : sizeUnits size = (chunkCount size : ℚ) := by
    unfold sizeUnits
    rw [(rounded size).2]
    rfl
  intro ranges
  induction ranges with
  | nil =>
    intro _
    exact ⟨[], rfl, fun u hu => by cases hu⟩
  | cons r ranges ih =>
    intro h
    obtain ⟨us, hus, hbounds⟩ := ih fun r' hr' => h r' (List.mem_cons_of_mem _ hr')
    obtain ⟨hsafe₁, hsafe₂, hlow, hle, hlt⟩ := h r List.mem_cons_self
    obtain ⟨a, ha⟩ := natural_of_isSafe hsafe₁ hlow
    obtain ⟨b, hb⟩ := natural_of_isSafe hsafe₂ (hlow.trans hle)
    rw [ha, hb] at hle
    rw [hb, hunits] at hlt
    refine ⟨(a, b) :: us, ?_, ?_⟩
    · rw [List.map_cons, ← hus]
      congr 1
      exact Prod.ext ha hb
    · intro u hu
      rcases List.mem_cons.mp hu with rfl | hu
      · exact ⟨by exact_mod_cast hle, by exact_mod_cast hlt⟩
      · exact hbounds u hu

/-! ## §6. The ciphertext of a range of units. -/

/-- The bytes from the first record of a range of units to the last. -/
def recordsOf (size : Nat) (u : Nat × Nat) : Nat × Nat :=
  (recordOffset u.1, recordEnd size u.2 - recordOffset u.1)

section Records

variable {size total : Nat} {u : Nat × Nat}

/-- The short last record ends with the file. -/
theorem recordEnd_eq_min (hs : Spans size total) {b : Nat} (hb : b < chunkCount size) :
    min total (recordOffset (b + 1)) = recordEnd size b := by
  by_cases hlast : b + 1 = chunkCount size
  · have hend := hs.last b hlast
    have hle : recordEnd size b ≤ recordOffset (b + 1) := by
      simp only [recordEnd, recordOffset, chunkLen, HEADER, CHUNK, OVERHEAD]
      omega
    omega
  · have hnext := hs.next b (by omega)
    have hinside := (hs.inside b hb).2
    omega

theorem isSafe_natural {n : Nat} (h : n < 2 ^ 53) : isSafe (n : ℚ) = true := by
  have hint : isSafe ((n : ℤ) : ℚ) = true := isSafe_int (by rw [abs_of_nonneg (by omega)]; omega)
  exact_mod_cast hint

theorem recordOffset_lt_end (hs : Spans size total) (hle : u.1 ≤ u.2) (hlt : u.2 < chunkCount size) :
    recordOffset u.1 < recordEnd size u.2 ∧ recordEnd size u.2 ≤ total := by
  have hmono : recordOffset u.1 ≤ recordOffset u.2 := by
    simp only [recordOffset, CHUNK, OVERHEAD]
    omega
  obtain ⟨hlow, hhigh⟩ := hs.inside u.2 hlt
  omega

/-- **The range the page computes is the records of its units.** -/
theorem ciphertext_eq (hs : Spans size total) (htotal : total < 2 ^ 53) (hle : u.1 ≤ u.2)
    (hlt : u.2 < chunkCount size) :
    ciphertext total (toRational u) = some (toRational (recordsOf size u)) := by
  obtain ⟨hlow, hhigh⟩ := recordOffset_lt_end hs hle hlt
  have hstart : (198 : ℚ) + (u.1 : ℚ) * (65536 + 62) = (recordOffset u.1 : ℚ) := by
    rw [(hs.span u.1).1]
    push_cast
    ring
  have hstop : min (total : ℚ) (198 + ((u.2 : ℚ) + 1) * (65536 + 62)) = (recordEnd size u.2 : ℚ) := by
    rw [← recordEnd_eq_min hs hlt, (hs.span (u.2 + 1)).1, Nat.cast_min]
    push_cast
    ring_nf
  unfold ciphertext toRational
  dsimp only
  rw [hstart, hstop, if_neg]
  · congr 2
    rw [recordsOf, Nat.cast_sub hlow.le]
  · rw [isSafe_natural (by omega), isSafe_natural (by omega)]
    rintro (h | h | h | h)
    · cases h
    · cases h
    · exact absurd h (not_lt.mpr (Nat.cast_nonneg _))
    · exact absurd h (not_le.mpr (by exact_mod_cast hlow))

theorem fetchable_records (hs : Spans size total) (htotal : total < 2 ^ 53) (hle : u.1 ≤ u.2)
    (hlt : u.2 < chunkCount size) : Fetchable total (toRational (recordsOf size u)) := by
  obtain ⟨hlow, hhigh⟩ := recordOffset_lt_end hs hle hlt
  refine ⟨⟨isSafe_natural ?_, isSafe_natural ?_⟩, Nat.cast_nonneg _, ?_, ?_⟩
  · show recordOffset u.1 < 2 ^ 53
    omega
  · show recordEnd size u.2 - recordOffset u.1 < 2 ^ 53
    omega
  · show (1 : ℚ) ≤ ((recordEnd size u.2 - recordOffset u.1 : Nat) : ℚ)
    exact_mod_cast (show 1 ≤ recordEnd size u.2 - recordOffset u.1 by omega)
  · show ((recordOffset u.1 : Nat) : ℚ) + ((recordEnd size u.2 - recordOffset u.1 : Nat) : ℚ) ≤ total
    exact_mod_cast (show recordOffset u.1 + (recordEnd size u.2 - recordOffset u.1) ≤ total by omega)

/-- The last piece of the records starts on the disk. -/
theorem piecesOf_records (hs : Spans size total) (hle : u.1 ≤ u.2) (hlt : u.2 < chunkCount size) :
    (piecesOf (toRational (recordsOf size u))).1 ≤ (piecesOf (toRational (recordsOf size u))).2 ∧
      (piecesOf (toRational (recordsOf size u))).2 * PIECE ≤ total := by
  obtain ⟨hlow, hhigh⟩ := recordOffset_lt_end hs hle hlt
  have hlast : ((recordOffset u.1 : Nat) : ℚ) + ((recordEnd size u.2 - recordOffset u.1 : Nat) : ℚ) - 1
      = ((recordEnd size u.2 - 1 : Nat) : ℚ) := by
    rw [Nat.cast_sub hlow.le, Nat.cast_sub (by omega), Nat.cast_one]
    ring
  have hfirst : (piecesOf (toRational (recordsOf size u))).1 = (recordOffset u.1 : ℤ) / 262144 :=
    Rat.floor_natCast_div_natCast _ 262144
  have hsecond : (piecesOf (toRational (recordsOf size u))).2 = (recordEnd size u.2 - 1 : Nat) / 262144 := by
    show ⌊(((recordOffset u.1 : Nat) : ℚ) + ((recordEnd size u.2 - recordOffset u.1 : Nat) : ℚ) - 1) / 262144⌋ = _
    rw [hlast]
    exact Rat.floor_natCast_div_natCast _ 262144
  rw [hfirst, hsecond]
  unfold PIECE
  omega

/-- What a range of units is, byte for byte. -/
structure Ciphertext (size : Nat) (u : Nat × Nat) (offset length : Nat) : Prop where
  start : offset = recordOffset u.1
  stop : offset + length = recordEnd size u.2
  /-- A byte of the range is a byte of the record of one of the units. -/
  records : ∀ x, (offset ≤ x ∧ x < offset + length) ↔
    ∃ i, u.1 ≤ i ∧ i ≤ u.2 ∧ recordOffset i ≤ x ∧ x < recordEnd size i
  /-- The engine reads the chunk of a unit from bytes of the range: hosts that agree on them are
      not told apart. -/
  reads : ∀ (P : Crypto.Primitives) (img : Image) (io io' : Io) (t i : Nat), img.size = size →
    u.1 ≤ i → i ≤ u.2 → io.cancelled = io'.cancelled →
    (∀ t o n, offset ≤ o → o + n ≤ offset + length →
      io.read t img.source o n = io'.read t img.source o n) →
    Image.original P io i (img, t) = Image.original P io' i (img, t)

theorem recordEnd_mono {i j : Nat} (h : i ≤ j) (hs : Spans size total) (hj : j < chunkCount size) :
    recordOffset i ≤ recordOffset j ∧ recordEnd size i ≤ recordEnd size j := by
  have hlast := (hs.inside j hj).1
  refine ⟨by simp only [recordOffset, CHUNK, OVERHEAD]; omega, ?_⟩
  rcases Nat.eq_or_lt_of_le h with rfl | hlt
  · exact le_rfl
  · rw [hs.next i (by omega)]
    have hstep : recordOffset (i + 1) ≤ recordOffset j := by
      simp only [recordOffset, CHUNK, OVERHEAD]
      omega
    omega

/-- Every byte behind the header lies in some stride. -/
theorem exists_stride {x first : Nat} (h : 198 + first * 65598 ≤ x) :
    ∃ q, first ≤ q ∧ 198 + q * 65598 ≤ x ∧ x < 198 + (q + 1) * 65598 := by
  have hlow := Nat.div_mul_le_self (x - 198) 65598
  have hhigh := Nat.lt_div_mul_add (a := x - 198) (show 0 < 65598 by decide)
  generalize (x - 198) / 65598 = q at hlow hhigh
  have hheader : 198 ≤ x := by omega
  have hfirst : first ≤ q := by omega
  clear h
  exact ⟨q, hfirst, by omega, by omega⟩

theorem ciphertext_spec (hs : Spans size total) (hle : u.1 ≤ u.2) (hlt : u.2 < chunkCount size) :
    Ciphertext size u (recordsOf size u).1 (recordsOf size u).2 := by
  obtain ⟨hlow, hhigh⟩ := recordOffset_lt_end hs hle hlt
  have hstop : recordOffset u.1 + (recordEnd size u.2 - recordOffset u.1) = recordEnd size u.2 := by
    omega
  refine ⟨rfl, hstop, ?_, ?_⟩
  · intro x
    show (recordOffset u.1 ≤ x ∧ x < recordOffset u.1 + (recordEnd size u.2 - recordOffset u.1)) ↔ _
    rw [hstop]
    constructor
    · rintro ⟨hx, hx'⟩
      -- the record is found by its stride
      rw [(hs.span u.1).1] at hx
      obtain ⟨q, hstart, hq, hq'⟩ := exists_stride hx
      rcases Nat.lt_or_ge q u.2 with h | h
      · refine ⟨q, hstart, h.le, ?_, ?_⟩
        · rw [(hs.span q).1]
          exact hq
        · rw [hs.next q (by omega), (hs.span (q + 1)).1]
          exact hq'
      · refine ⟨u.2, hle, le_rfl, ?_, hx'⟩
        rw [(hs.span u.2).1]
        exact (Nat.add_le_add_left (Nat.mul_le_mul_right _ h) _).trans hq
    · rintro ⟨i, hi, hi', hx, hx'⟩
      have hfirst := (recordEnd_mono hi hs (by omega)).1
      have hlast := (recordEnd_mono hi' hs hlt).2
      omega
  · intro P img io io' t i hsize hi hi' hcancelled hread
    refine original_reads ⟨hcancelled, fun t => ?_⟩
    rw [hsize]
    have hfirst := (recordEnd_mono hi hs (by omega)).1
    have hlast := (recordEnd_mono hi' hs hlt).2
    have hinside := (hs.inside i (by omega)).1
    refine hread t _ _ hfirst ?_
    show recordOffset i + (recordEnd size i - recordOffset i)
      ≤ recordOffset u.1 + (recordEnd size u.2 - recordOffset u.1)
    omega

end Records

/-! ## §7. One target. -/

/-- A profile that passed is a dictionary whose ranges passed. -/
theorem validateOne_ranges {infoHash : Units} {units : ℚ} {kinds kinds' : List Units} {p : Tree}
    (h : validateOne infoHash units kinds p = some kinds') :
    isDict p = true ∧ (matchingRanges (withVersion p) infoHash units).isSome = true := by
  unfold validateOne at h
  split at h
  · cases h
  next hfields =>
    have hdict : isDict p = true := by
      cases p with
      | obj fields => rfl
      | _ => exact absurd (Or.inl (by simp [prop])) hfields
    refine ⟨hdict, ?_⟩
    cases hkind : kindOf p with
    | none =>
      rw [hkind] at h
      cases h
    | some kind =>
      rw [hkind] at h
      dsimp only at h
      by_contra hnone
      have hnone' : (matchingRanges (withVersion p) infoHash units).isNone = true := by
        simpa using hnone
      rw [if_pos hnone'] at h
      split at h
      · cases h
      · split at h
        · cases h
        · split at h
          · cases h
          · split at h <;> cases h

theorem validateAll_mem {infoHash : Units} {units : ℚ} : ∀ {kinds : List Units} {ps : List Tree},
    validateAll infoHash units kinds ps = some () → ∀ p ∈ ps,
      isDict p = true ∧ (matchingRanges (withVersion p) infoHash units).isSome = true := by
  intro kinds ps
  induction ps generalizing kinds with
  | nil =>
    intro _ p hp
    cases hp
  | cons p ps ih =>
    intro h q hq
    unfold validateAll at h
    cases hone : validateOne infoHash units kinds p with
    | none =>
      rw [hone] at h
      cases h
    | some kinds' =>
      rw [hone] at h
      rcases List.mem_cons.mp hq with rfl | hq
      · exact validateOne_ranges hone
      · exact ih h q hq

/-- The profiles of a list that `validateLoadProfiles` accepts. -/
theorem validate_mem {value v p : Tree} {infoHash : Units} {units : ℚ}
    (h : validateLoadProfiles value infoHash units = some v) (hp : p ∈ (list? value).getD []) :
    isDict p = true ∧ ∃ ranges, matchingRanges (withVersion p) infoHash units = some ranges := by
  unfold validateLoadProfiles at h
  cases hlist : list? value with
  | none =>
    rw [hlist] at hp
    cases hp
  | some ps =>
    rw [hlist] at h hp
    dsimp only at h
    split at h
    · cases h
    · obtain ⟨u, hall, -⟩ := Option.map_eq_some_iff.mp h
      obtain ⟨hdict, hsome⟩ := validateAll_mem hall p hp
      exact ⟨hdict, Option.isSome_iff_exists.mp hsome⟩

/-- What `matchingRanges` says of the slots. -/
theorem matchingRanges_slots {p : Tree} (hdict : isDict p = true) {infoHash : Units} {units : ℚ}
    {ranges : List (ℚ × ℚ)} (h : matchingRanges (withVersion p) infoHash units = some ranges) :
    ∃ slots, (prop p "ranges").bind list? = some slots ∧ slots.length = 32 ∧
      jsCollect units slots = some ranges := by
  unfold matchingRanges at h
  rw [withVersion_prop hdict "ranges" (by decide)] at h
  split at h
  · cases h
  · cases hslots : (prop p "ranges").bind list? with
    | none =>
      rw [hslots] at h
      cases h
    | some slots =>
      rw [hslots] at h
      dsimp only at h
      split at h
      · cases h
      next hlen =>
        cases hcollect : jsCollect units slots with
        | none =>
          rw [hcollect] at h
          cases h
        | some collected =>
          rw [hcollect] at h
          dsimp only at h
          split at h
          · cases h
          · exact ⟨slots, rfl, not_not.mp hlen, by rw [hcollect, Option.some.inj h]⟩

/-- What both sides make of an accepted profile. -/
structure Agreement (size total : Nat) (p : Tree) (us : List (Nat × Nat)) : Prop where
  atMost : us.length ≤ 32
  ciphertext : ∀ u ∈ us, Ciphertext size u (recordsOf size u).1 (recordsOf size u).2
  totals : ∃ target indices,
    startupRanges p total = some (us.map fun u => toRational (recordsOf size u), target) ∧
    startupTargets (us.map fun u => toRational (recordsOf size u)) total = some indices ∧
    indices.Nodup ∧ target = targetTotal total indices

theorem mapM_ciphertext {size total : Nat} (hs : Spans size total) (htotal : total < 2 ^ 53) :
    ∀ {us : List (Nat × Nat)}, (∀ u ∈ us, u.1 ≤ u.2 ∧ u.2 < chunkCount size) →
      (us.map toRational).mapM (ciphertext total) =
        some (us.map fun u => toRational (recordsOf size u)) := by
  intro us
  induction us with
  | nil =>
    intro _
    rfl
  | cons u us ih =>
    intro h
    obtain ⟨hle, hlt⟩ := h u List.mem_cons_self
    rw [List.map_cons, List.mapM_cons, ciphertext_eq hs htotal hle hlt,
      ih fun u' hu' => h u' (List.mem_cons_of_mem _ hu')]
    rfl

/-- **The page and the window count the same target**, for every accepted profile of a disk of
    any size up to 1 TiB. -/
theorem startup_agreement {size total : Nat} (hsize : fileSize size = .ok total)
    {value v p : Tree} {infoHash : Units}
    (hvalid : validateLoadProfiles value infoHash (sizeUnits size) = some v)
    (hp : p ∈ (list? value).getD []) :
    ∃ us : List (Nat × Nat), matchingRanges (withVersion p) infoHash (sizeUnits size) =
        some (us.map toRational) ∧ Agreement size total p us := by
  have hs := spans hsize
  obtain ⟨hpos, hle, htotal⟩ := fileSize_ok hsize
  have hsmall : total < 2 ^ 53 :=
    intermediates_lt hle (i := 0) hs.some _ (by rw [htotal]; simp [intermediates])
  obtain ⟨hdict, ranges, hmatch⟩ := validate_mem hvalid hp
  obtain ⟨slots, hslots, hlen, hcollect⟩ := matchingRanges_slots hdict hmatch
  obtain ⟨hpairs, hcount, hinside⟩ := jsCollect_spec hcollect
  obtain ⟨us, rfl, hus⟩ := naturals_of_inside hinside
  have hfetch : ∀ r ∈ us.map fun u => toRational (recordsOf size u), Fetchable total r := by
    intro r hr
    obtain ⟨u, hu, rfl⟩ := List.mem_map.mp hr
    exact fetchable_records hs hsmall (hus u hu).1 (hus u hu).2
  obtain ⟨indices, htargets, hnodup, hmem⟩ := startupTargets_spec hfetch
  refine ⟨us, hmatch, ?_, ?_, ?_⟩
  · rw [List.length_map, hlen] at hcount
    exact hcount
  · intro u hu
    exact ciphertext_spec hs (hus u hu).1 (hus u hu).2
  · refine ⟨_, indices, ?_, htargets, hnodup, totals_agree ?_ hnodup hmem⟩
    · unfold startupRanges
      rw [hslots, Option.bind_eq_bind, Option.bind_some, hpairs, Option.bind_eq_bind,
        Option.bind_some, mapM_ciphertext hs hsmall hus]
      rfl
    · intro x hx
      obtain ⟨r, hr, rfl⟩ := List.mem_map.mp hx
      obtain ⟨u, hu, rfl⟩ := List.mem_map.mp hr
      exact piecesOf_records hs (hus u hu).1 (hus u hu).2

/-- The profile of a disk of two units, and its target. -/
def demoProfiles : Tree := (loadsBytes (demoData (units "0.5"))).getD .null

theorem demo_agreement : ∃ total p us, fileSize 131072 = .ok total ∧
    p ∈ (list? demoProfiles).getD [] ∧ Agreement 131072 total p us := by
  have hok : (validateProfiles demoProfiles demoDisk demoHeader none).isOk = true := by
    decide +kernel
  have hsome : 0 < ((list? demoProfiles).getD []).length := by decide +kernel
  obtain ⟨p, hp⟩ := List.exists_mem_of_length_pos hsome
  cases hread : validateProfiles demoProfiles demoDisk demoHeader none with
  | error e =>
    rw [hread] at hok
    cases hok
  | ok v =>
    have hvalid : Valid demoDisk (headerUnits demoHeader) none :=
      ⟨by decide, by decide, fun _ hnone => by cases hnone⟩
    have haccepted := (validate_of_validate hvalid hread).2.accepted
    rw [← sizeUnits_eq] at haccepted
    have hsize : fileSize (Torrent.Formats.headerSize demoHeader) = .ok 131394 := by decide +kernel
    obtain ⟨us, -, hagreement⟩ := startup_agreement hsize haccepted hp
    exact ⟨131394, p, us, hsize, hp, hagreement⟩

end My98.Web.Startup
