/-
  My98.Web.BootAnalysis — recording what a start of the machine reads
  (`src/disk/web/boot-analysis.js`).

  While an analysis runs, every read of the disk is observed: the 64 KiB units it touches are put
  into a set, in the order they are first touched.  The set holds at most 200,000 units; the unit
  after that ends the analysis for good.  `finish` freezes the set, picks the ranges, and exports
  one load profile.

  The profile goes a long way: it is printed, imported by the seedbox, which checks it with
  `validate_profiles`, and read back by the browser, which checks it with `validateLoadProfiles`.

    • `record_spec`    — one read: the units are recorded, or the analysis is over;
    • `observeAll_run` — and a run of them;
    • `publishable`    — what is exported passes BOTH validators, before and after it is printed;
    • `exports`        — a whole session, whatever is read.
-/
import Mathlib
import My98.Disk.BootRanges
import My98.Web.LoadProfiles

namespace My98.Web.BootAnalysis

open My98.Lib My98.Lib.JsonText My98.Torrent.DescriptorText My98.Torrent.Formats
  My98.Web.LoadProfiles

/-! ## §1. The code. -/

/-- The constant `MAX_ANALYSIS_UNITS`. -/
def maxAnalysisUnits : Nat := 200000

/-- The constant `MAX_PROFILE_BYTES` of `load-profiles.js`. -/
def maxProfileBytes : Nat := 65536

/-- The SHA-256 of a state, as text. -/
structure StateHash where
  text : Units
  property : isStateHash text = true

/-- What the machine was started from: `{kind:'boot'}` or `{kind:'state', sha256}`. -/
inductive Origin where
  | boot
  | state (sha256 : StateHash)

structure Analysis where
  infoHash : HashText
  size : Nat
  origin : Option Origin
  /-- The set `units`, in insertion order. -/
  units : List Int
  recording : Bool
  overflow : Bool

/-- The constructor. -/
def Analysis.new (infoHash : HashText) (size : Nat) (origin : Option Origin) : Analysis :=
  { infoHash, size, origin, units := [], recording := true, overflow := false }

/-- The loop over the units, from `unit` on; `true` is that the set is full. -/
def Analysis.record (a : Analysis) (unit : Int) : Nat → Analysis × Bool
  | 0 => (a, false)
  | count + 1 =>
    if unit ∈ a.units then a.record (unit + 1) count
    else if a.units.length = maxAnalysisUnits then
      ({ a with recording := false, overflow := true }, true)
    else { a with units := a.units ++ [unit] }.record (unit + 1) count

/-- `Math.floor(offset/UNIT)`. -/
def firstUnit (offset : Int) : Int := offset / 65536

/-- How many turns the loop up to `Math.floor((offset+length-1)/UNIT)` makes. -/
def unitCount (offset length : Int) : Nat := ((offset + length - 1) / 65536 - firstUnit offset + 1).toNat

/-- A sum above `2 ^ 53` is rounded, to another number above every size. -/
def Analysis.observe (a : Analysis) (offset length : Option ℚ) : Analysis × Bool :=
  if a.recording = false ∨ length = some 0 then (a, false)
  else
    match safeInteger? offset, safeInteger? length with
    | some offset, some length =>
      if offset < 0 ∨ length < 0 ∨ offset + length > a.size then (a, false)
      else a.record (firstUnit offset) (unitCount offset length)
    | _, _ => (a, false)

/-- The literal of the default utilization. -/
def half : Units := units "0.5"

/-- A number that is no fraction, printed. -/
def numberTree (n : Int) : Tree := .num (if n < 0 then 45 :: numeral n.natAbs else numeral n.natAbs)

def originTree : Origin → Tree
  | .boot => .obj [(units "kind", .str boot)]
  | .state sha256 => .obj [(units "kind", .str fromState), (units "sha256", .str sha256.text)]

/-- One of the 32 slots. -/
def slotTree : Option (Int × Int) → Tree
  | none => .null
  | some r => .arr [numberTree r.1, numberTree r.2]

/-- The profile that is exported.  The utilization is the default, always. -/
def exportedProfile (a : Analysis) (p : Disk.RangeProfile.Profile) : Tree :=
  .obj ([(units "version", numberTree (if a.origin.isSome then 2 else 1)),
      (units "infoHash", .str a.infoHash.text)] ++
    (a.origin.toList.map fun origin => (units "origin", originTree origin)) ++
    [(units "unitBytes", numberTree 65536), (units "ranges", .arr (p.ranges.map slotTree)),
      (units "minUtilization", .num half), (units "observedUnits", numberTree p.observedUnits),
      (units "coveredUnits", numberTree p.coveredUnits),
      (units "downloadUnits", numberTree p.downloadUnits)])

def Analysis.finish (a : Analysis) : Analysis × Except String Tree :=
  let a := { a with recording := false }
  if a.overflow then
    (a, .error "Analysis exceeded 200,000 distinct blocks. No partial profile was exported.")
  else
    match Disk.RangeProfile.selectBootRanges a.units ((50 : Int) / 100) with
    | .error e => (a, .error e)
    | .ok p => (a, .ok (.arr [exportedProfile a p]))

/-- What the worker asks of an analysis. -/
inductive Call where
  | observe (offset length : Option ℚ)
  | finish

/-- What it is answered. -/
inductive Answer where
  | observed (full : Bool)
  | finished (result : Except String Tree)

def Analysis.call (a : Analysis) : Call → Analysis × Answer
  | .observe offset length => ((a.observe offset length).1, .observed (a.observe offset length).2)
  | .finish => (a.finish.1, .finished a.finish.2)

/-- The analysis after the calls. -/
def Analysis.after (a : Analysis) : List Call → Analysis
  | [] => a
  | c :: calls => (a.call c).1.after calls

/-- Calls made in two parts end where all of them do. -/
theorem after_append (calls more : List Call) : ∀ a : Analysis,
    a.after (calls ++ more) = (a.after calls).after more := by
  induction calls with
  | nil => exact fun _ => rfl
  | cons c calls ih => exact fun a => ih (a.call c).1

/-- The answers to the calls. -/
def Analysis.answers (a : Analysis) : List Call → List Answer
  | [] => []
  | c :: calls => (a.call c).2 :: (a.call c).1.answers calls

/-- The calls that observe these reads. -/
def observes (reads : List (Option ℚ × Option ℚ)) : List Call := reads.map fun r => .observe r.1 r.2

/-! ## §2. What is touched. -/

/-- So many units, from one on. -/
def unitRun (unit : Int) (count : Nat) : List Int := (List.range count).map fun k : Nat => unit + k

/-- The units a read touches, if it is a read of the disk. -/
def touchedBy (size : Nat) (offset length : Option ℚ) : List Int :=
  match safeInteger? offset, safeInteger? length with
  | some offset, some length =>
    if 0 ≤ offset ∧ 0 < length ∧ offset + length ≤ size then
      unitRun (firstUnit offset) (unitCount offset length)
    else []
  | _, _ => []

/-- The units that all the reads touch. -/
def touched (size : Nat) (reads : List (Option ℚ × Option ℚ)) : List Int :=
  reads.flatMap fun r => touchedBy size r.1 r.2

/-- How many of them are different. -/
def distinct (seen : List Int) : Nat := seen.dedup.length

/-- A run of units starts with its first. -/
theorem unitRun_succ (unit : Int) (count : Nat) :
    unitRun unit (count + 1) = unit :: unitRun (unit + 1) count := by
  rw [unitRun, List.range_succ_eq_map, List.map_cons, List.map_map]
  simp only [Nat.cast_zero, add_zero]
  congr 1
  refine List.map_congr_left fun k _ => ?_
  simp only [Function.comp_apply, Nat.succ_eq_add_one]
  omega

/-- More units seen are at least as many different ones. -/
theorem distinct_mono {seen seen' : List Int} (h : ∀ u ∈ seen, u ∈ seen') :
    distinct seen ≤ distinct seen' := by
  rw [distinct, distinct, ← List.card_toFinset, ← List.card_toFinset]
  refine Finset.card_le_card fun u hu => ?_
  rw [List.mem_toFinset] at hu ⊢
  exact h u hu

/-- Every unit that is touched is one of the disk's. -/
theorem touchedBy_bounds {size : Nat} {offset length : Option ℚ} :
    ∀ u ∈ touchedBy size offset length, 0 ≤ u ∧ u < ((size + 65535) / 65536 : ℕ) := by
  intro u hu
  unfold touchedBy at hu
  split at hu
  next offset length =>
    split at hu
    next h =>
      obtain ⟨k, hk, rfl⟩ := List.mem_map.mp hu
      have hlt := List.mem_range.mp hk
      unfold unitCount firstUnit at *
      omega
    · cases hu
  · cases hu

/-- A touched unit lies in the file. -/
theorem touched_bounds {size : Nat} {reads : List (Option ℚ × Option ℚ)} :
    ∀ u ∈ touched size reads, 0 ≤ u ∧ u < ((size + 65535) / 65536 : ℕ) := by
  intro u hu
  obtain ⟨r, -, hr⟩ := List.mem_flatMap.mp hu
  exact touchedBy_bounds u hr

/-! ## §3. Recording. -/

/-- The units of the set are those seen. -/
structure Recorded (seen : List Int) (a : Analysis) : Prop where
  nodup : a.units.Nodup
  mem : ∀ u, u ∈ a.units ↔ u ∈ seen
  few : a.units.length ≤ maxAnalysisUnits
  overflow : a.overflow = false

/-- The analysis keeps each unit that was seen once. -/
theorem Recorded.length {seen : List Int} {a : Analysis} (h : Recorded seen a) :
    a.units.length = distinct seen :=
  ((List.perm_ext_iff_of_nodup h.nodup (List.nodup_dedup seen)).mpr fun u =>
    (h.mem u).trans List.mem_dedup.symm).length_eq

/-- The analysis is over: the set is full, and one more unit was touched. -/
def Analysis.Full (a : Analysis) : Prop := a.recording = false ∧ a.overflow = true

/-- What no read changes. -/
structure Analysis.Same (a b : Analysis) : Prop where
  infoHash : b.infoHash = a.infoHash
  size : b.size = a.size
  origin : b.origin = a.origin

/-- Sameness of what does not change is transitive. -/
theorem Analysis.Same.trans {a b c : Analysis} (h : a.Same b) (h' : b.Same c) : a.Same c :=
  ⟨h'.infoHash.trans h.infoHash, h'.size.trans h.size, h'.origin.trans h.origin⟩

/-- The units up to here are recorded, or one of them was one too many. -/
inductive Recording (seen : List Int) (a : Analysis) : Analysis × Bool → Prop
  | going {b : Analysis} (h : Recorded seen b) (hsame : a.Same b)
      (hrecording : b.recording = a.recording) : Recording seen a (b, false)
  | full {b : Analysis} (h : b.Full) (hmany : maxAnalysisUnits < distinct seen) : Recording seen a (b, true)

/-- **One read.** -/
theorem record_spec {count : Nat} : ∀ {a : Analysis} {unit : Int} {seen : List Int},
    Recorded seen a → Recording (seen ++ unitRun unit count) a (a.record unit count) := by
  induction count with
  | zero =>
    intro a unit seen h
    rw [show unitRun unit 0 = [] from rfl, List.append_nil]
    exact .going h ⟨rfl, rfl, rfl⟩ rfl
  | succ count ih =>
    intro a unit seen h
    rw [unitRun_succ, Analysis.record]
    have happend : seen ++ unit :: unitRun (unit + 1) count =
        (seen ++ [unit]) ++ unitRun (unit + 1) count := by
      rw [List.append_assoc]
      rfl
    rw [happend]
    split
    next hmem =>
      -- the unit is in the set already
      have hseen : ∀ u, u ∈ seen ++ [unit] ↔ u ∈ seen := by
        intro u
        rw [List.mem_append, List.mem_singleton]
        exact ⟨fun hu => hu.elim id fun heq => heq ▸ (h.mem unit).mp hmem, .inl⟩
      exact ih ⟨h.nodup, fun u => (h.mem u).trans (hseen u).symm, h.few, h.overflow⟩
    next hnew =>
      split
      next hfull =>
        refine .full ⟨rfl, rfl⟩ ?_
        have hlen : (a.units ++ [unit]).length = maxAnalysisUnits + 1 := by
          rw [List.length_append, hfull]
          rfl
        have hnodup : (a.units ++ [unit]).Nodup := by
          rw [List.nodup_append]
          refine ⟨h.nodup, List.nodup_singleton _, fun u hu v hv heq => hnew ?_⟩
          rwa [← List.mem_singleton.mp hv, ← heq]
        have hle : distinct (a.units ++ [unit]) ≤
            distinct ((seen ++ [unit]) ++ unitRun (unit + 1) count) := by
          refine distinct_mono fun u hu => List.mem_append_left _ ?_
          rw [List.mem_append] at hu ⊢
          exact hu.imp (h.mem u).mp id
        rw [distinct, hnodup.dedup, hlen] at hle
        exact hle
      next hroom =>
        have hrecorded : Recorded (seen ++ [unit]) { a with units := a.units ++ [unit] } := by
          refine ⟨?_, fun u => ?_, ?_, h.overflow⟩
          · rw [List.nodup_append]
            refine ⟨h.nodup, List.nodup_singleton _, fun u hu v hv heq => hnew ?_⟩
            rwa [← List.mem_singleton.mp hv, ← heq]
          · rw [List.mem_append, List.mem_append, h.mem u]
          · have := h.few
            rw [List.length_append, List.length_singleton]
            omega
        cases hrest : Analysis.record { a with units := a.units ++ [unit] } (unit + 1) count with
        | mk b full =>
          have hrun : Recording ((seen ++ [unit]) ++ unitRun (unit + 1) count)
              { a with units := a.units ++ [unit] } (b, full) := hrest ▸ ih hrecorded
          cases hrun with
          | going hb hsame hrecording =>
            exact .going hb ⟨hsame.infoHash, hsame.size, hsame.origin⟩ hrecording
          | full hb hmany => exact .full hb hmany

/-- **One read**, as it is observed. -/
theorem observe_spec {a : Analysis} {seen : List Int} (hrecording : a.recording = true)
    (h : Recorded seen a) (offset length : Option ℚ) :
    Recording (seen ++ touchedBy a.size offset length) a (a.observe offset length) := by
  have hnone : Recording (seen ++ []) a (a, false) := by
    rw [List.append_nil]
    exact .going h ⟨rfl, rfl, rfl⟩ rfl
  unfold Analysis.observe touchedBy
  rw [hrecording]
  cases hoffset : safeInteger? offset with
  | none =>
    dsimp only
    split <;> exact hnone
  | some first =>
    cases hlength : safeInteger? length with
    | none =>
      dsimp only
      split <;> exact hnone
    | some n =>
      dsimp only
      by_cases hzero : length = some 0
      · have hn : n = 0 := by
          have hval : safeInteger? (some 0) = some 0 := by norm_num [safeInteger?, isSafe]
          rw [hzero, hval] at hlength
          exact (Option.some.inj hlength).symm
        have hout : ¬(0 ≤ first ∧ 0 < n ∧ first + n ≤ a.size) := by omega
        rw [if_neg hout, if_pos (Or.inr hzero)]
        exact hnone
      · have hn : n ≠ 0 := fun hn => hzero (safeInteger?_zero (hlength.trans (congrArg some hn)))
        have hbusy : ¬(true = false ∨ length = some 0) := by
          rintro (h | h)
          · cases h
          · exact hzero h
        by_cases hin : 0 ≤ first ∧ 0 < n ∧ first + n ≤ a.size
        · have hvalid : ¬(first < 0 ∨ n < 0 ∨ first + n > a.size) := by omega
          rw [if_pos hin, if_neg hbusy, if_neg hvalid]
          exact record_spec h
        · have hinvalid : first < 0 ∨ n < 0 ∨ first + n > a.size := by omega
          rw [if_neg hin, if_neg hbusy, if_pos hinvalid]
          exact hnone

/-! ## §4. Runs. -/

/-- Nothing is recorded any more, and nothing exported. -/
theorem Analysis.Full.call {a : Analysis} (h : a.Full) (c : Call) :
    (a.call c).1 = a ∧
      ((a.call c).2 = .observed false ∨ ∃ e, (a.call c).2 = .finished (.error e)) := by
  obtain ⟨hrecording, hoverflow⟩ := h
  cases c with
  | observe offset length =>
    rw [Analysis.call, Analysis.observe, if_pos (.inl hrecording)]
    exact ⟨rfl, .inl rfl⟩
  | finish =>
    have hsame : { a with recording := false } = a := by rw [← hrecording]
    rw [Analysis.call, Analysis.finish]
    dsimp only
    rw [if_pos hoverflow]
    exact ⟨hsame, .inr ⟨_, rfl⟩⟩

/-- **An analysis that is full stays full**: it records nothing more, and has no profile to give. -/
theorem Analysis.Full.run {calls : List Call} {a : Analysis} (h : a.Full) :
    a.after calls = a ∧
      ∀ answer ∈ a.answers calls, answer = .observed false ∨ ∃ e, answer = .finished (.error e) := by
  induction calls with
  | nil => exact ⟨rfl, fun _ hmem => by cases hmem⟩
  | cons c calls ih =>
    obtain ⟨hsame, hanswer⟩ := h.call c
    rw [Analysis.after, Analysis.answers, hsame]
    refine ⟨ih.1, fun answer hmem => ?_⟩
    rcases List.mem_cons.mp hmem with rfl | hmem
    · exact hanswer
    · exact ih.2 answer hmem

/-- The set is frozen, and this is exported from it. -/
structure Analysis.Frozen (a : Analysis) (value : Tree) : Prop where
  recording : a.recording = false
  finish : a.finish = (a, .ok value)

/-- A finished analysis answers its value again, and records nothing. -/
theorem Analysis.Frozen.call {a : Analysis} {value : Tree} (h : a.Frozen value) (c : Call) :
    (a.call c).1 = a ∧ ((a.call c).2 = .observed false ∨ (a.call c).2 = .finished (.ok value)) := by
  cases c with
  | observe offset length =>
    rw [Analysis.call, Analysis.observe, if_pos (.inl h.recording)]
    exact ⟨rfl, .inl rfl⟩
  | finish =>
    rw [Analysis.call, h.finish]
    exact ⟨rfl, .inr rfl⟩

/-- So it does for every further call. -/
theorem Analysis.Frozen.run {calls : List Call} {a : Analysis} {value : Tree}
    (h : a.Frozen value) : ∀ answer ∈ a.answers calls,
      answer = .observed false ∨ answer = .finished (.ok value) := by
  induction calls with
  | nil => exact fun _ hmem => by cases hmem
  | cons c calls ih =>
    obtain ⟨hsame, hanswer⟩ := h.call c
    rw [Analysis.answers, hsame]
    intro answer hmem
    rcases List.mem_cons.mp hmem with rfl | hmem
    · exact hanswer
    · exact ih answer hmem

/-- One of the reads was one too many: no read before it was answered `true`, and it was. -/
def Overflows (a : Analysis) (reads : List (Option ℚ × Option ℚ)) : Prop :=
  ∃ before read later, reads = before ++ read :: later ∧
    (∀ answer ∈ a.answers (observes before), answer = .observed false) ∧
    ((a.after (observes before)).observe read.1 read.2).2 = true ∧
    ((a.after (observes before)).observe read.1 read.2).1.Full

/-- **A run of reads**: the units of the set are those touched, or one read was one too many. -/
theorem observes_spec {reads : List (Option ℚ × Option ℚ)} : ∀ {a : Analysis} {seen : List Int},
    a.recording = true → Recorded seen a →
      (Recorded (seen ++ touched a.size reads) (a.after (observes reads)) ∧
        a.Same (a.after (observes reads)) ∧
        ∀ answer ∈ a.answers (observes reads), answer = .observed false) ∨
      (maxAnalysisUnits < distinct (seen ++ touched a.size reads) ∧ Overflows a reads) := by
  induction reads with
  | nil =>
    intro a seen _ h
    rw [show touched a.size [] = [] from rfl, List.append_nil]
    exact .inl ⟨h, ⟨rfl, rfl, rfl⟩, fun _ hmem => by cases hmem⟩
  | cons read reads ih =>
    intro a seen hrecording h
    have hone := observe_spec hrecording h read.1 read.2
    have hcall : a.call (.observe read.1 read.2) =
        ((a.observe read.1 read.2).1, .observed (a.observe read.1 read.2).2) := rfl
    have htouched : seen ++ touched a.size (read :: reads) =
        (seen ++ touchedBy a.size read.1 read.2) ++ touched a.size reads := by
      rw [List.append_assoc]
      rfl
    have hobserves : observes (read :: reads) = .observe read.1 read.2 :: observes reads := rfl
    rw [htouched, hobserves, Analysis.after, Analysis.answers, hcall]
    cases hobserve : a.observe read.1 read.2 with
    | mk b full =>
      rw [hobserve] at hone
      dsimp only
      cases hone with
      | going hb hsame hrecording' =>
        have hrest := ih (hrecording'.trans hrecording) hb
        rw [hsame.size] at hrest
        refine hrest.imp (fun hrest => ⟨hrest.1, hsame.trans hrest.2.1, ?_⟩) fun hrest => ⟨hrest.1, ?_⟩
        · intro answer hmem
          exact (List.mem_cons.mp hmem).elim id (hrest.2.2 answer)
        · obtain ⟨before, last, later, rfl, hbefore, htrue, hfull⟩ := hrest.2
          have hafter : a.after (observes (read :: before)) = b.after (observes before) := by
            rw [show observes (read :: before) = .observe read.1 read.2 :: observes before from rfl,
              Analysis.after, hcall, hobserve]
          refine ⟨read :: before, last, later, rfl, ?_, by rwa [hafter], by rwa [hafter]⟩
          rw [show observes (read :: before) = .observe read.1 read.2 :: observes before from rfl,
            Analysis.answers, hcall, hobserve]
          intro answer hmem
          exact (List.mem_cons.mp hmem).elim id (hbefore answer)
      | full hb hmany =>
        refine .inr ⟨hmany.trans_le (distinct_mono fun u hu => List.mem_append_left _ hu), ?_⟩
        refine ⟨[], read, reads, rfl, fun _ hmem => absurd hmem List.not_mem_nil, ?_, ?_⟩
        · show (a.observe read.1 read.2).2 = true
          rw [hobserve]
        · show (a.observe read.1 read.2).1.Full
          rw [hobserve]
          exact hb

/-! ## §5. What is printed of a number. -/

/-- The numeral of a number is read as that number. -/
theorem natValue_numeral (n : Nat) : natValue (numeral n) = n := by
  have hfold : ∀ (cs : List Char) (k : Nat), (cs.map Char.toNat).foldl (fun n c => 10 * n + (c - 48)) k =
      Nat.ofDigitChars 10 cs k := by
    intro cs
    induction cs with
    | nil => exact fun _ => rfl
    | cons c cs ih =>
      intro k
      rw [List.map_cons, List.foldl_cons, ih, Nat.ofDigitChars_cons]
      rfl
  rw [natValue, numeral, hfold, Nat.ofDigitChars_ten_toDigits]

/-- Also as an integer. -/
theorem intValue_numeral (n : Nat) : intValue (numeral n) = some (n : Int) := by
  have hall := numeral_all n
  have hvalue := natValue_numeral n
  cases hn : numeral n with
  | nil => exact absurd hn (numeral_ne_nil n)
  | cons c ds =>
    rw [hn] at hall hvalue
    have hc := hall c List.mem_cons_self
    have hsign : c ≠ 45 := by
      rintro rfl
      exact absurd hc (by decide)
    rw [intValue, if_neg hsign, if_pos (List.all_eq_true.mpr hall), hvalue]

/-- A number of the profile is read back. -/
theorem int_numberTree {n : Int} (h : 0 ≤ n) : int? (numberTree n) = some n := by
  rw [numberTree, if_neg (by omega), int?, intValue_numeral, Int.natAbs_of_nonneg h]

/-- A number is spelled as JSON spells it. -/
theorem numberTree_spelled (n : Int) : (numberTree n).Spelled := by
  unfold numberTree
  split
  · obtain ⟨s, i, f, e, heq, hs, hi, hf, he⟩ := numeral_isNumber n.natAbs
    -- a literal of digits has no sign, so one may stand before it
    obtain ⟨c, tl, hc, hnumeral⟩ : ∃ c tl, numeral n.natAbs = c :: tl ∧ isNumeral c = true := by
      cases hn : numeral n.natAbs with
      | nil => exact absurd hn (numeral_ne_nil _)
      | cons c tl => exact ⟨c, tl, rfl, numeral_all _ c (by rw [hn]; exact List.mem_cons_self)⟩
    rcases hs with rfl | rfl
    · exact ⟨[45], i, f, e, by rw [heq]; rfl, .inr rfl, hi, hf, he⟩
    · rw [heq] at hc
      obtain ⟨rfl, -⟩ := List.cons.inj hc
      exact absurd hnumeral (by decide)
  · exact numeral_isNumber _

/-- Its characters are single bytes. -/
theorem numberTree_oneByte (n : Int) : (numberTree n).OneByte := by
  unfold numberTree
  split
  · exact Ascii.cons (by decide) (numeral_ascii _)
  · exact numeral_ascii _

/-- A number below `10 ^ k` takes at most `k` characters. -/
theorem length_numberTree {n : Int} {k : Nat} (hk : 0 < k) (h : 0 ≤ n ∧ n < 10 ^ k) :
    (print (numberTree n)).length ≤ k := by
  have hlt : n.natAbs < 10 ^ k := by
    have hcast : ((n.natAbs : ℕ) : ℤ) < ((10 ^ k : ℕ) : ℤ) := by
      rw [Int.natAbs_of_nonneg h.1]
      exact_mod_cast h.2
    exact_mod_cast hcast
  rw [numberTree, if_neg (by omega), print]
  exact length_numeral hk hlt

/-! ## §6. The ranges are accepted. -/

/-- Everything about a selection that a validator asks for. -/
structure Selected (count : Nat) (p : Disk.RangeProfile.Profile) (chosen : List (Int × Int)) : Prop where
  few : chosen.length ≤ 32
  slots : p.ranges = chosen.map some ++ List.replicate (32 - chosen.length) none
  proper : ∀ r ∈ chosen, r.1 ≤ r.2
  apart : chosen.Pairwise fun a b => a.2 < b.1 ∨ b.2 < a.1
  within : ∀ r ∈ chosen, 0 ≤ r.1 ∧ r.2 < count
  observed : p.observedUnits ≤ count
  covered : 0 ≤ p.coveredUnits ∧ p.coveredUnits ≤ count
  download : 0 ≤ p.downloadUnits ∧ p.downloadUnits ≤ count

/-- **What is selected from the units of a disk.** -/
theorem selected {count : Nat} (hcount : 0 < count ∧ count ≤ 2 ^ 24) {touched : List Int}
    (hunits : ∀ u ∈ touched, 0 ≤ u ∧ u < count) :
    ∃ p chosen, Disk.RangeProfile.selectBootRanges touched ((50 : Int) / 100) = .ok p ∧
      Selected count p chosen := by
  have hvalid : ∀ u ∈ touched, 0 ≤ u ∧ u < 2 ^ 24 := by
    intro u hu
    have := hunits u hu
    omega
  have hpercent : (1 : Int) ≤ 50 ∧ (50 : Int) ≤ 100 := by decide
  obtain ⟨p, chosen, hok, hbest⟩ := Disk.RangeProfile.selectBootRanges_best hvalid hpercent
  obtain ⟨-, hobserved, hwithin⟩ :=
    Disk.RangeProfile.selectBootRanges_within (by omega) (by omega) hunits hok
  have hin : ∀ r ∈ chosen, 0 ≤ r.1 ∧ r.2 < count := by
    intro r hr
    refine hwithin r ?_
    rw [hbest.slots]
    exact List.mem_append_left _ (List.mem_map_of_mem hr)
  have hdistinct : touched.dedup.length ≤ count := by
    rw [← List.card_toFinset]
    have hsub : touched.toFinset ⊆ Finset.Ico 0 (count : ℤ) := fun u hu =>
      Finset.mem_Ico.mpr (hunits u (List.mem_toFinset.mp hu))
    have hcard := Finset.card_le_card hsub
    rw [Int.card_Ico] at hcard
    omega
  have hcovered : Disk.RangeProfile.coveredUnits touched chosen ≤ touched.dedup.length := by
    rw [Disk.RangeProfile.coveredUnits, Disk.RangeProfile.covered]
    exact_mod_cast List.length_filter_le _ _
  have hdownload := sum_length_le (by omega) hbest.family.proper hin hbest.family.disjoint
  have hpositive : 0 ≤ Disk.RangeProfile.downloadUnits chosen := by
    refine List.sum_nonneg fun x hx => ?_
    obtain ⟨r, hr, rfl⟩ := List.mem_map.mp hx
    have := hbest.family.proper r hr
    omega
  refine ⟨p, chosen, hok, hbest.family.few, hbest.slots, hbest.family.proper,
    hbest.family.disjoint, hin, by omega, ?_, ?_⟩
  · rw [hbest.hits]
    exact ⟨Int.natCast_nonneg _, by omega⟩
  · rw [hbest.size]
    exact ⟨hpositive, by rw [Disk.RangeProfile.downloadUnits]; omega⟩

/-- The slots of the chosen ranges are read back as those ranges, whatever slots stand empty. -/
theorem collect_slots {count : Nat} {chosen : List (Int × Int)}
    (hproper : ∀ r ∈ chosen, r.1 ≤ r.2) (hwithin : ∀ r ∈ chosen, 0 ≤ r.1 ∧ r.2 < count) (empty : Nat) :
    collect count ((chosen.map some ++ List.replicate empty none).map slotTree) = .ok chosen := by
  induction chosen with
  | nil =>
    induction empty with
    | zero => rfl
    | succ empty ih => exact ih
  | cons r chosen ih =>
    have hr := hproper r List.mem_cons_self
    have hin := hwithin r List.mem_cons_self
    have hpair : pair? (slotTree (some r)) = some (r.1, r.2) := by
      rw [slotTree, pair?, int_numberTree hin.1, int_numberTree (by omega)]
      rfl
    have hrest := ih (fun s hs => hproper s (List.mem_cons_of_mem _ hs))
      fun s hs => hwithin s (List.mem_cons_of_mem _ hs)
    rw [List.map_cons, List.cons_append, List.map_cons, collect, hpair]
    · dsimp only
      rw [if_pos ⟨hin.1, hr, hin.2⟩, hrest]
      rfl
    · intro h
      cases h

/-- Ranges in order do not overlap. -/
theorem overlapping_of_pairwise {ranges : List (Int × Int)}
    (h : ranges.Pairwise fun a b => a.2 < b.1) : overlapping ranges = false := by
  induction ranges with
  | nil => rfl
  | cons a rest ih =>
    obtain ⟨ha, hrest⟩ := List.pairwise_cons.mp h
    cases rest with
    | nil => rfl
    | cons b rest =>
      have hab : ¬a.2 ≥ b.1 := not_le.mpr (ha b List.mem_cons_self)
      exact Bool.or_eq_false_iff.mpr ⟨decide_eq_false hab, ih hrest⟩

/-- Nor do ranges apart from each other, once they are sorted. -/
theorem overlapping_of_apart {ranges : List (Int × Int)} (hproper : ∀ r ∈ ranges, r.1 ≤ r.2)
    (happart : ranges.Pairwise fun a b => a.2 < b.1 ∨ b.2 < a.1) :
    overlapping (ranges.insertionSort pairLe) = false := by
  have : Std.Total pairLe := ⟨fun a b => by unfold pairLe; omega⟩
  have : IsTrans (Int × Int) pairLe := ⟨fun a b c => by unfold pairLe; omega⟩
  refine overlapping_of_pairwise (insertionSort_in_order (fun a b h => ?_) hproper happart)
  unfold pairLe at h
  omega

/-! ## §7. The profile is accepted. -/

def Origin.kind : Origin → Units
  | .boot => Torrent.Formats.boot
  | .state _ => fromState

/-- The state that a publication must hold for the profile to belong to it. -/
def Origin.Matches : Origin → Option Units → Prop
  | .boot, _ => True
  | .state sha256, stateHash => stateHash = some sha256.text

/-- A hash is written in plain letters. -/
theorem hash_letters {text : Units} (h : text.all isHashDigit = true) :
    Letters text ∧ Ascii text := by
  have hdigit : ∀ c ∈ text, 48 ≤ c ∧ c ≤ 57 ∨ 97 ≤ c ∧ c ≤ 102 := by
    intro c hc
    have hall := List.all_eq_true.mp h c hc
    simpa [isHashDigit] using hall
  exact ⟨fun c hc => by have := hdigit c hc; omega, fun c hc => by have := hdigit c hc; omega⟩

/-- Its text is the string itself. -/
theorem text_hash {text : Units} (h : text.all isHashDigit = true) :
    text? (.str text) = some text := by
  rw [text?, (codePoints_eq_iff (hash_basic h)).mpr (hash_letters h).1.utf16Value]

/-- The hash of a torrent has digits only. -/
theorem hashText_all (hash : HashText) : hash.text.all isHashDigit = true :=
  (Bool.and_eq_true_iff.mp hash.property).2

/-- So does the hash of a state. -/
theorem stateHash_all (hash : StateHash) : hash.text.all isHashDigit = true :=
  (Bool.and_eq_true_iff.mp hash.property).2

/-- The origin carries its kind. -/
theorem origin_kind (o : Origin) : dictGet (originTree o) "kind" = some (.str o.kind) := by
  cases o <;> rfl

/-- The fields of a profile that is exported with an origin. -/
structure Fields (a : Analysis) (p : Disk.RangeProfile.Profile) (o : Origin) (profile : Tree) : Prop where
  dict : isDict profile = true
  version : dictGet profile "version" = some (numberTree 2)
  infoHash : dictGet profile "infoHash" = some (.str a.infoHash.text)
  origin : dictGet profile "origin" = some (originTree o)
  unitBytes : dictGet profile "unitBytes" = some (numberTree 65536)
  ranges : dictGet profile "ranges" = some (.arr (p.ranges.map slotTree))
  minUtilization : dictGet profile "minUtilization" = some (.num half)
  observedUnits : dictGet profile "observedUnits" = some (numberTree p.observedUnits)
  coveredUnits : dictGet profile "coveredUnits" = some (numberTree p.coveredUnits)
  downloadUnits : dictGet profile "downloadUnits" = some (numberTree p.downloadUnits)

/-- The exported profile carries the fields of the analysis. -/
theorem exported_fields {a : Analysis} (p : Disk.RangeProfile.Profile) {o : Origin}
    (ho : a.origin = some o) : Fields a p o (exportedProfile a p) := by
  unfold exportedProfile
  rw [ho]
  exact ⟨rfl, rfl, rfl, rfl, rfl, rfl, rfl, rfl, rfl, rfl⟩

section Accepting

variable {a : Analysis} {p : Disk.RangeProfile.Profile} {chosen : List (Int × Int)} {count : Nat}
  {o : Origin} {profile : Tree}

/-- A profile with these fields is current for its torrent. -/
theorem Fields.current (h : Fields a p o profile) : isCurrent a.infoHash.text profile = true := by
  rw [isCurrent, h.dict, h.version, h.infoHash, h.unitBytes, Option.bind_some, Option.bind_some,
    Option.bind_some, int_numberTree (by decide), int_numberTree (by decide),
    text_hash (hashText_all _), decide_eq_true rfl, decide_eq_true rfl, decide_eq_true rfl]
  rfl

/-- Its origin is read back. -/
theorem Fields.originKind (h : Fields a p o profile) : originKind profile = some o.kind := by
  have hkind : text? (.str o.kind) = some o.kind ∧ o.kind ∈ [Torrent.Formats.boot, fromState] := by
    cases o with
    | boot => decide
    | state sha256 =>
      show text? (.str fromState) = some fromState ∧ fromState ∈ [Torrent.Formats.boot, fromState]
      decide
  rw [Torrent.Formats.originKind, h.origin, Option.bind_some, origin_kind, Option.bind_some, hkind.1,
    Option.filter_some, if_pos (decide_eq_true hkind.2)]

/-- Its ranges are read back. -/
theorem Fields.profileRanges (h : Fields a p o profile) (hp : Selected count p chosen) :
    profileRanges count profile = .ok chosen := by
  have hlen : (p.ranges.map slotTree).length = 32 := by
    have := hp.few
    rw [List.length_map, hp.slots, List.length_append, List.length_map, List.length_replicate]
    omega
  rw [Torrent.Formats.profileRanges, h.ranges]
  show (if (p.ranges.map slotTree).length ≠ 32 then _ else _) = _
  rw [if_neg (not_not.mpr hlen), hp.slots, collect_slots hp.proper hp.within]
  dsimp only
  rw [overlapping_of_apart hp.proper hp.apart, if_neg (by decide)]

/-- A number within the count is a metric. -/
theorem isMetric_number {profile : Tree} {name : String} {n : Int}
    (h : dictGet profile name = some (numberTree n)) (hn : 0 ≤ n ∧ n ≤ count) :
    isMetric count profile name = true := by
  rw [isMetric, h]
  dsimp only
  rw [int_numberTree hn.1]
  exact decide_eq_true hn

/-- **The profile is what the seedbox asks for.** -/
theorem Fields.accepted (h : Fields a p o profile) (hp : Selected count p chosen)
    {stateHash : Option Units} (hmatch : o.Matches stateHash) :
    Accepted a.infoHash.text count stateHash profile o.kind := by
  refine ⟨h.current, h.originKind, fun hkind => ?_, fun hkind => ?_, ⟨chosen, h.profileRanges hp⟩,
    ?_, ?_⟩
  · cases o with
    | boot => exact absurd hkind (by decide)
    | state sha256 =>
      refine ⟨sha256.text, hmatch, ?_⟩
      rw [originHash, h.origin]
      exact text_hash (stateHash_all sha256)
  · cases o with
    | boot =>
      rw [originHash, h.origin]
      rfl
    | state sha256 => exact absurd rfl hkind
  · have hall : ∀ name ∈ metrics, isMetric count profile name = true := by
      intro name hname
      simp only [metrics, List.mem_cons, List.not_mem_nil, or_false] at hname
      rcases hname with rfl | rfl | rfl
      · exact isMetric_number h.observedUnits ⟨Int.natCast_nonneg _, by exact_mod_cast hp.observed⟩
      · exact isMetric_number h.coveredUnits hp.covered
      · exact isMetric_number h.downloadUnits hp.download
    exact List.all_eq_true.mpr hall
  · rw [h.minUtilization]
    decide +kernel

end Accepting

/-! ## §8. The text. -/

/-- The names of the fields are plain text. -/
theorem units_named : ∀ name ∈ ["version", "infoHash", "origin", "unitBytes", "ranges",
    "minUtilization", "observedUnits", "coveredUnits", "downloadUnits", "kind", "sha256"],
    Letters (units name) ∧ Ascii (units name) := by
  unfold Letters Ascii
  decide

/-- The threshold is written as a number. -/
theorem half_literal : IsNumber half ∧ Ascii half := by
  refine ⟨⟨[], [48], [46, 53], [], rfl, .inl rfl, .inl rfl, ?_, .inl rfl⟩, ?_⟩
  · exact .inr ⟨[53], rfl, ⟨by decide, by decide⟩⟩
  · unfold Ascii
    decide

/-- A tree that is written as JSON in one byte a character. -/
def Written (v : Tree) : Prop := v.Spelled ∧ v.OneByte

/-- A number is written. -/
theorem written_number (n : Int) : Written (numberTree n) := ⟨numberTree_spelled n, numberTree_oneByte n⟩

/-- So is plain text. -/
theorem written_text {text : Units} (h : Letters text ∧ Ascii text) : Written (.str text) :=
  ⟨h.1.chars, h.2⟩

/-- An object of plain names and written values is written. -/
theorem written_obj {fields : List (Units × Tree)}
    (h : ∀ f ∈ fields, (Letters f.1 ∧ Ascii f.1) ∧ Written f.2) : Written (.obj fields) := by
  induction fields with
  | nil => exact ⟨trivial, trivial⟩
  | cons f fields ih =>
    obtain ⟨hname, hvalue⟩ := h f List.mem_cons_self
    obtain ⟨hspelled, hbyte⟩ := ih fun f hf => h f (List.mem_cons_of_mem _ hf)
    exact ⟨⟨hname.1.chars, hvalue.1, hspelled⟩, ⟨hname.2, hvalue.2, hbyte⟩⟩

/-- So is an array of written values. -/
theorem written_arr {items : List Tree} (h : ∀ v ∈ items, Written v) : Written (.arr items) := by
  induction items with
  | nil => exact ⟨trivial, trivial⟩
  | cons v items ih =>
    have hv := h v List.mem_cons_self
    obtain ⟨hspelled, hbyte⟩ := ih fun v hv => h v (List.mem_cons_of_mem _ hv)
    exact ⟨⟨hv.1, hspelled⟩, ⟨hv.2, hbyte⟩⟩

/-- A slot is written, empty or not. -/
theorem written_slot (slot : Option (Int × Int)) : Written (slotTree slot) := by
  cases slot with
  | none => exact ⟨trivial, trivial⟩
  | some r =>
    refine written_arr fun v hv => ?_
    simp only [List.mem_cons, List.not_mem_nil, or_false] at hv
    rcases hv with rfl | rfl <;> exact written_number _

/-- An origin is written. -/
theorem written_origin (o : Origin) : Written (originTree o) := by
  cases o with
  | boot =>
    refine written_obj fun f hf => ?_
    obtain rfl := List.mem_singleton.mp hf
    exact ⟨units_named "kind" (by decide), written_text (by unfold Letters Ascii; decide)⟩
  | state sha256 =>
    refine written_obj fun f hf => ?_
    rcases List.mem_cons.mp hf with rfl | hf
    · exact ⟨units_named "kind" (by decide), written_text (by unfold Letters Ascii; decide)⟩
    · obtain rfl := List.mem_singleton.mp hf
      exact ⟨units_named "sha256" (by decide), written_text (hash_letters (stateHash_all sha256))⟩

/-- The fields in the order they are written. -/
theorem exportedProfile_eq {a : Analysis} (p : Disk.RangeProfile.Profile) {o : Origin}
    (ho : a.origin = some o) :
    exportedProfile a p = .obj [(units "version", numberTree 2),
      (units "infoHash", .str a.infoHash.text), (units "origin", originTree o),
      (units "unitBytes", numberTree 65536), (units "ranges", .arr (p.ranges.map slotTree)),
      (units "minUtilization", .num half), (units "observedUnits", numberTree p.observedUnits),
      (units "coveredUnits", numberTree p.coveredUnits),
      (units "downloadUnits", numberTree p.downloadUnits)] := by
  unfold exportedProfile
  rw [ho]
  rfl

/-- **The exported profile is written** in characters that JSON keeps as they are. -/
theorem written_profile {a : Analysis} (p : Disk.RangeProfile.Profile) {o : Origin}
    (ho : a.origin = some o) : Written (.arr [exportedProfile a p]) := by
  have hfield : ∀ (name : String) (v : Tree), name ∈ ["version", "infoHash", "origin", "unitBytes",
      "ranges", "minUtilization", "observedUnits", "coveredUnits", "downloadUnits", "kind", "sha256"] →
      Written v → (Letters (units name) ∧ Ascii (units name)) ∧ Written v :=
    fun name v hname hv => ⟨units_named name hname, hv⟩
  refine written_arr fun v hv => ?_
  obtain rfl := List.mem_singleton.mp hv
  rw [exportedProfile_eq p ho]
  refine written_obj fun f hf => ?_
  simp only [List.mem_cons, List.not_mem_nil, or_false] at hf
  rcases hf with rfl | rfl | rfl | rfl | rfl | rfl | rfl | rfl | rfl
  · exact hfield _ _ (by decide) (written_number _)
  · exact hfield _ _ (by decide) (written_text (hash_letters (hashText_all _)))
  · exact hfield _ _ (by decide) (written_origin o)
  · exact hfield _ _ (by decide) (written_number _)
  · refine hfield _ _ (by decide) (written_arr fun v hv => ?_)
    obtain ⟨slot, -, rfl⟩ := List.mem_map.mp hv
    exact written_slot slot
  · exact hfield _ _ (by decide) half_literal
  · exact hfield _ _ (by decide) (written_number _)
  · exact hfield _ _ (by decide) (written_number _)
  · exact hfield _ _ (by decide) (written_number _)

/-- A slot takes at most twenty characters. -/
theorem length_slot {slot : Option (Int × Int)} (h : ∀ r, slot = some r →
    (0 ≤ r.1 ∧ r.1 < 10 ^ 8) ∧ 0 ≤ r.2 ∧ r.2 < 10 ^ 8) : (print (slotTree slot)).length ≤ 20 := by
  cases slot with
  | none => decide
  | some r =>
    obtain ⟨hfirst, hlast⟩ := h r rfl
    have hone := length_numberTree (by decide) hfirst
    have htwo := length_numberTree (by decide) hlast
    have hpair := length_print_arr [numberTree r.1, numberTree r.2]
    rw [List.map_cons, List.map_cons, List.map_nil, List.sum_cons, List.sum_cons, List.sum_nil] at hpair
    show (print (.arr [numberTree r.1, numberTree r.2])).length ≤ 20
    omega

/-- An origin takes at most a hundred. -/
theorem length_origin (o : Origin) : (print (originTree o)).length ≤ 100 := by
  cases o with
  | boot => decide
  | state sha256 =>
    have hlen : sha256.text.length = 64 := of_decide_eq_true (Bool.and_eq_true_iff.mp sha256.property).1
    have hobj := length_print_obj [(units "kind", .str fromState), (units "sha256", .str sha256.text)]
    have hkind : (print (.str fromState)).length = 7 := by decide
    have hhash : (print (.str sha256.text)).length = 66 := by
      rw [print, List.length_cons, List.length_append, hlen]
      rfl
    have hnames : (units "kind").length = 4 ∧ (units "sha256").length = 6 := by decide
    simp only [List.map_cons, List.map_nil, List.sum_cons, List.sum_nil, hkind, hhash, hnames] at hobj
    show (print (.obj [(units "kind", .str fromState), (units "sha256", .str sha256.text)])).length ≤ 100
    omega

/-- **The text is short.** -/
theorem length_profile {a : Analysis} {p : Disk.RangeProfile.Profile} {chosen : List (Int × Int)}
    {count : Nat} (hcount : count ≤ 2 ^ 24) {o : Origin} (ho : a.origin = some o)
    (hp : Selected count p chosen) : (print (.arr [exportedProfile a p])).length ≤ 65536 := by
  -- The ranges have 32 slots of at most twenty characters, and a comma each.
  have hslots : (print (.arr (p.ranges.map slotTree))).length ≤ 21 * 32 + 2 := by
    have harr := length_print_arr (p.ranges.map slotTree)
    have hlen : p.ranges.length = 32 := by
      have := hp.few
      rw [hp.slots, List.length_append, List.length_map, List.length_replicate]
      omega
    have hsum : ((p.ranges.map slotTree).map fun v => (print v).length + 1).sum ≤ 21 * 32 := by
      have hle := List.sum_le_card_nsmul ((p.ranges.map slotTree).map fun v => (print v).length + 1) 21
        (fun n hn => by
          rw [List.map_map] at hn
          obtain ⟨slot, hslot, rfl⟩ := List.mem_map.mp hn
          refine Nat.succ_le_succ (length_slot fun r hr => ?_)
          subst hr
          rw [hp.slots] at hslot
          have hmem : r ∈ chosen := by
            rcases List.mem_append.mp hslot with h | h
            · obtain ⟨r', hr', heq⟩ := List.mem_map.mp h
              exact Option.some.inj heq ▸ hr'
            · cases List.eq_of_mem_replicate h
          have := hp.within r hmem
          have := hp.proper r hmem
          omega)
      rw [List.length_map, List.length_map, hlen] at hle
      exact hle
    omega
  have hhash : (print (.str a.infoHash.text)).length = 42 := by
    have hlen : a.infoHash.text.length = 40 :=
      of_decide_eq_true (Bool.and_eq_true_iff.mp a.infoHash.property).1
    rw [print, List.length_cons, List.length_append, hlen]
    rfl
  have horigin := length_origin o
  -- Every number of units has at most eight digits.
  have hobserved := length_numberTree (n := p.observedUnits) (k := 8) (by decide)
    ⟨Int.natCast_nonneg _, by have := hp.observed; omega⟩
  have hcovered := length_numberTree (n := p.coveredUnits) (k := 8) (by decide)
    ⟨hp.covered.1, by have := hp.covered.2; omega⟩
  have hdownload := length_numberTree (n := p.downloadUnits) (k := 8) (by decide)
    ⟨hp.download.1, by have := hp.download.2; omega⟩
  have hversion : (print (numberTree 2)).length = 1 ∧ (print (numberTree 65536)).length = 5 ∧
      (print (.num half)).length = 3 := by decide
  have hnames : (units "version").length = 7 ∧ (units "infoHash").length = 8 ∧
      (units "origin").length = 6 ∧ (units "unitBytes").length = 9 ∧ (units "ranges").length = 6 ∧
      (units "minUtilization").length = 14 ∧ (units "observedUnits").length = 13 ∧
      (units "coveredUnits").length = 12 ∧ (units "downloadUnits").length = 13 := by decide
  have hlist := length_print_arr [exportedProfile a p]
  rw [exportedProfile_eq p ho] at hlist ⊢
  have hobj := length_print_obj [(units "version", numberTree 2),
      (units "infoHash", .str a.infoHash.text), (units "origin", originTree o),
      (units "unitBytes", numberTree 65536), (units "ranges", .arr (p.ranges.map slotTree)),
      (units "minUtilization", .num half), (units "observedUnits", numberTree p.observedUnits),
      (units "coveredUnits", numberTree p.coveredUnits),
      (units "downloadUnits", numberTree p.downloadUnits)]
  simp only [List.map_cons, List.map_nil, List.sum_cons, List.sum_nil, hversion, hnames, hhash] at hobj hlist
  omega

/-! ## §9. Exports are publishable. -/

/-- A list of profiles that can be published for a disk of this size: short as text, and accepted
by the browser and by the seedbox, as it is and from its text. -/
structure Publishable (size : Nat) (disk : HashText) (origin : Origin) (value : Tree) : Prop where
  one : ∃ profile, value = .arr [profile]
  short : ((print value).map UInt8.ofNat).length ≤ maxProfileBytes
  browser : validateLoadProfiles value disk.text (sizeUnits size) = some value
  seedbox : ∀ header stateHash, headerSize header = size → origin.Matches stateHash →
    validateProfiles value disk.text header stateHash = .ok value
  parsed : parseBytes ((print value).map UInt8.ofNat) = some value
  checked : ∀ header stateHash, headerSize header = size → origin.Matches stateHash →
    checkProfiles ((print value).map UInt8.ofNat) disk.text header stateHash = .ok value

/-- An origin from a state never matches an empty hash. -/
theorem Origin.Matches.nonempty {o : Origin} {stateHash : Option Units} (h : o.Matches stateHash)
    (hkind : o.kind = fromState) : stateHash ≠ some [] := by
  cases o with
  | boot => exact absurd hkind (by decide)
  | state sha256 =>
    have hlen : sha256.text.length = 64 := of_decide_eq_true (Bool.and_eq_true_iff.mp sha256.property).1
    rw [show stateHash = some sha256.text from h]
    intro hempty
    rw [Option.some.inj hempty] at hlen
    cases hlen

/-- The state that the origin names, if it names one. -/
def Origin.stateHash : Origin → Option Units
  | .boot => none
  | .state sha256 => some sha256.text

/-- **One profile in a list.** -/
theorem validateEach_profile {a : Analysis} {p : Disk.RangeProfile.Profile} {chosen : List (Int × Int)}
    {count : Nat} {o : Origin} (ho : a.origin = some o) (hp : Selected count p chosen)
    {stateHash : Option Units} (hmatch : o.Matches stateHash) :
    validateEach a.infoHash.text count stateHash [] [exportedProfile a p] = .ok () := by
  have haccepted := (exported_fields p ho).accepted hp hmatch
  rw [validateEach, validateProfile_of_accepted haccepted hmatch.nonempty List.not_mem_nil]
  rfl

/-- **What is exported may be published**, for every file up to a tebibyte. -/
theorem publishable {a : Analysis} {p : Disk.RangeProfile.Profile} {chosen : List (Int × Int)}
    {o : Origin} {size : Nat} (hsize : size ≤ 2 ^ 40) (ho : a.origin = some o)
    (hp : Selected ((size + 65535) / 65536) p chosen) :
    Publishable size a.infoHash o (.arr [exportedProfile a p]) := by
  have hcount : (size + 65535) / 65536 ≤ 2 ^ 24 := by omega
  have hshort : ((print (.arr [exportedProfile a p])).map UInt8.ofNat).length ≤ maxProfileBytes := by
    rw [List.length_map]
    exact length_profile hcount ho hp
  have hone : ¬2 < [exportedProfile a p].length := by
    rw [List.length_singleton]
    omega
  have hwritten := written_profile p ho
  obtain ⟨hparse, hloads⟩ := parseBytes_print hwritten.1 hwritten.2
  have hseedbox : ∀ header stateHash, headerSize header = size → o.Matches stateHash →
      validateProfiles (.arr [exportedProfile a p]) a.infoHash.text header stateHash =
        .ok (.arr [exportedProfile a p]) := by
    intro header stateHash hheader hmatch
    have heach := validateEach_profile ho hp hmatch
    rw [← hheader] at heach
    rw [validateProfiles, list?]
    dsimp only
    rw [if_neg hone, headerUnits, heach]
  refine ⟨⟨_, rfl⟩, hshort, ?_, hseedbox, hparse, fun header stateHash hheader hmatch => ?_⟩
  · have hmatch : o.Matches o.stateHash := by
      cases o with
      | boot => trivial
      | state sha256 => rfl
    have hvalid : Valid a.infoHash.text ((size + 65535) / 65536) o.stateHash := by
      refine ⟨a.infoHash.property, hcount, fun h hh => ?_⟩
      cases o with
      | boot => cases hh
      | state sha256 =>
        obtain rfl := Option.some.inj hh
        exact sha256.property
    have hall := (validateAll_of_each hvalid (validateEach_profile ho hp hmatch)).1
    rw [validateLoadProfiles, list?]
    dsimp only
    rw [if_neg hone, sizeUnits_nat, hall]
    rfl
  · have hlen : ¬65536 < ((print (.arr [exportedProfile a p])).map UInt8.ofNat).length := not_lt.mpr hshort
    rw [checkProfiles, readProfiles, if_neg hlen, hloads]
    exact hseedbox header stateHash hheader hmatch

/-- Finishing stops the recording and gives the exported profile of the selected ranges. -/
theorem finish_eq {a : Analysis} (hoverflow : a.overflow = false) {p : Disk.RangeProfile.Profile}
    (hok : Disk.RangeProfile.selectBootRanges a.units ((50 : Int) / 100) = .ok p) :
    a.finish =
      ({ a with recording := false }, .ok (.arr [exportedProfile { a with recording := false } p])) := by
  rw [Analysis.finish]
  dsimp only
  rw [hoverflow, if_neg (by decide), hok]

/-- **What is recorded can be exported**, and stays as it is. -/
theorem Recorded.finish {a : Analysis} {seen : List Int} {o : Origin} (h : Recorded seen a)
    (hsize : 1 ≤ a.size ∧ a.size ≤ 2 ^ 40) (ho : a.origin = some o)
    (hseen : ∀ u ∈ seen, 0 ≤ u ∧ u < ((a.size + 65535) / 65536 : ℕ)) :
    ∃ value, a.finish.2 = .ok value ∧ Publishable a.size a.infoHash o value ∧
      a.finish.1.Frozen value := by
  have hunits : ∀ u ∈ a.units, 0 ≤ u ∧ u < ((a.size + 65535) / 65536 : ℕ) :=
    fun u hu => hseen u ((h.mem u).mp hu)
  obtain ⟨p, chosen, hok, hp⟩ := selected (by omega) hunits
  have hfinish := finish_eq h.overflow hok
  have hagain := finish_eq (a := { a with recording := false }) h.overflow hok
  refine ⟨_, by rw [hfinish], publishable (a := { a with recording := false }) hsize.2 ho hp, ?_⟩
  rw [hfinish]
  exact ⟨rfl, hagain⟩

/-- **Load analysis exports are publishable.**  Whatever is read: while no more than 200,000 units
are touched, no read is told that the set is full, and `finish` returns one profile that can be
published, the same one as often as it is called.  Otherwise ONE read is told, nothing is recorded
after it, and `finish` always fails. -/
theorem exports {size : Nat} (hsize : 1 ≤ size ∧ size ≤ 2 ^ 40) (disk : HashText) (origin : Origin)
    (reads : List (Option ℚ × Option ℚ)) :
    let start := Analysis.new disk size (some origin)
    let done := start.after (observes reads)
    (distinct (touched size reads) < 200001 →
      (∀ answer ∈ start.answers (observes reads), answer = .observed false) ∧
      ∃ value, done.finish.2 = .ok value ∧ Publishable size disk origin value ∧
        ∀ calls, ∀ answer ∈ done.finish.1.answers calls,
          answer = .observed false ∨ answer = .finished (.ok value)) ∧
    (¬distinct (touched size reads) < 200001 →
      (∃ e, done.finish.2 = .error e) ∧
      ∃ before read later, reads = before ++ read :: later ∧
        (∀ answer ∈ start.answers (observes before), answer = .observed false) ∧
        ((start.after (observes before)).observe read.1 read.2).2 = true ∧
        ∀ calls, let last := ((start.after (observes before)).observe read.1 read.2).1
          last.after calls = last ∧ ∀ answer ∈ last.answers calls,
            answer = .observed false ∨ ∃ e, answer = .finished (.error e)) := by
  intro start done
  have hstart : Recorded [] start :=
    ⟨List.nodup_nil, fun _ => Iff.rfl, Nat.zero_le _, rfl⟩
  have hrun : (Recorded ([] ++ touched size reads) done ∧ start.Same done ∧
      ∀ answer ∈ start.answers (observes reads), answer = .observed false) ∨
      (maxAnalysisUnits < distinct ([] ++ touched size reads) ∧ Overflows start reads) :=
    observes_spec rfl hstart
  rw [List.nil_append] at hrun
  constructor
  · intro hfew
    rcases hrun with ⟨hrecorded, hsame, hanswers⟩ | ⟨hmany, -⟩
    · have hdone : done.size = size := hsame.size
      obtain ⟨value, hvalue, hpublishable, hfrozen⟩ := hrecorded.finish (o := origin)
        (by rw [hsame.size]; exact hsize) hsame.origin (by rw [hsame.size]; exact touched_bounds)
      rw [hsame.size, hsame.infoHash] at hpublishable
      exact ⟨hanswers, value, hvalue, hpublishable, fun calls => hfrozen.run⟩
    · unfold maxAnalysisUnits at hmany
      omega
  · intro hmany
    rcases hrun with ⟨hrecorded, -, -⟩ | ⟨-, before, read, later, hreads, hbefore, htrue, hfull⟩
    · have hlen := hrecorded.length
      have hfew := hrecorded.few
      unfold maxAnalysisUnits at hfew
      omega
    · refine ⟨?_, before, read, later, hreads, hbefore, htrue, fun calls => hfull.run⟩
      have hdone : done = ((start.after (observes before)).observe read.1 read.2).1 := by
        have hsplit : observes reads = observes before ++ .observe read.1 read.2 :: observes later := by
          rw [hreads, observes, List.map_append]
          rfl
        show start.after (observes reads) = _
        rw [hsplit, after_append]
        exact hfull.run.1
      rw [hdone]
      have hlast := (hfull.call .finish).2
      rcases hlast with hlast | ⟨e, hlast⟩
      · cases hlast
      · exact ⟨e, Answer.finished.inj hlast⟩

/-- The hash of the demo. -/
theorem demoHash_isHash : isHash (List.replicate 40 97) = true := by decide

def demoHash : HashText := ⟨List.replicate 40 97, demoHash_isHash⟩

/-- The size of the demo. -/
theorem demo_size : 1 ≤ 131072 ∧ 131072 ≤ 2 ^ 40 := by decide

/-- A recording of two reads, one of them before the file, is exported and may be published. -/
theorem demo_exports : ∃ value,
    ((Analysis.new demoHash 131072 (some .boot)).after
      (observes [(some 65000, some 1024), (some (-1), some 512)])).finish.2 = .ok value ∧
      Publishable 131072 demoHash .boot value := by
  obtain ⟨-, value, hvalue, hpublishable, -⟩ := (exports demo_size demoHash .boot
    [(some 65000, some 1024), (some (-1), some 512)]).1 (by decide +kernel)
  exact ⟨value, hvalue, hpublishable⟩

end My98.Web.BootAnalysis
