/-
  My98.Web.LoadProfiles — the load profiles as the browser checks them
  (`src/disk/web/load-profiles.js`, `matchingRanges` of `range-prefetch.js` and
  `RemotePublication.profiles` of `torrent-remote.js`).

  The seedbox and the browser check the same bytes with two validators.  On a tree that both have
  read they agree: what `validate_profiles` accepts, `validateLoadProfiles` accepts, and the ranges
  are the same numbers.  The bytes are where they part: `json.loads` also reads UTF-16 and UTF-32,
  surrogates, `NaN` and `Infinity`.

    • `validate_of_validate` — the two validators;
    • `profiles_iff`         — when the browser can use what the seedbox has accepted.
-/
import Mathlib.Algebra.Order.Floor.Ring
import Mathlib.Data.Rat.Floor
import My98.Lib.Intervals
import My98.Torrent.Formats

namespace My98.Web.LoadProfiles

open My98.Lib My98.Lib.JsonText My98.Torrent.DescriptorText My98.Torrent.Formats

/-! ## §1. The code. -/

/-- The code units of a code point. -/
def unitsOf (c : Nat) : Units :=
  if c < 0x10000 then [c] else [0xD800 + (c - 0x10000) / 0x400, 0xDC00 + (c - 0x10000) % 0x400]

/-- A string literal as a JavaScript string. -/
def jsString (l : Units) : Units := (utf16Value l).flatMap unitsOf

/-- `p.name`; what is no object has none of the names that are asked for. -/
def prop (p : Tree) (name : String) : Option Tree :=
  match p with
  | .obj fields => lookupField jsString fields (units name)
  | _ => none

def jsText : Tree → Option Units
  | .str l => some (jsString l)
  | _ => none

/-- A finite number. -/
def jsNumber : Tree → Option ℚ
  | .num l => double (literalValue l)
  | _ => none

/-- `Number.isSafeInteger(d)`. -/
def isSafe (d : ℚ) : Bool := decide ((⌊d⌋ : ℚ) = d ∧ |d| ≤ 2 ^ 53 - 1)

/-- A JavaScript number that is a safe integer.  `none` is a number that is not finite. -/
def safeInteger? (x : Option ℚ) : Option Int :=
  x.bind fun d => if isSafe d then some ⌊d⌋ else none

/-- `/^[0-9a-f]{64}$/.test(v)`.  A list of one item is converted to what the item is converted to;
no number is converted to a text of this length, nothing else to one of these letters. -/
def testHash : Tree → Bool
  | .str l => decide ((jsString l).length = 64) && (jsString l).all isHashDigit
  | .arr [v] => testHash v
  | _ => false

/-- `range[0]` and `range[1]`. -/
def jsPair : Tree → Option (ℚ × ℚ)
  | .arr [x, y] => (jsNumber x).bind fun a => (jsNumber y).map fun b => (a, b)
  | _ => none

/-- The loop over `profile.ranges`. -/
def jsCollect (units : ℚ) : List Tree → Option (List (ℚ × ℚ))
  | [] => some []
  | .null :: rest => jsCollect units rest
  | r :: rest =>
    match jsPair r with
    | none => none
    | some (a, b) =>
      if isSafe a = false ∨ isSafe b = false ∨ a < 0 ∨ b < a ∨ b ≥ units then none
      else (jsCollect units rest).map ((a, b) :: ·)

/-- `sorted.some((r,i)=>i && sorted[i-1][1]>=r[0])`. -/
def jsOverlapping : List (ℚ × ℚ) → Bool
  | a :: b :: rest => decide (a.2 ≥ b.1) || jsOverlapping (b :: rest)
  | _ => false

def matchingRanges (profile : Tree) (infoHash : Units) (units : ℚ) : Option (List (ℚ × ℚ)) :=
  if infoHash = [] ∨ (prop profile "version").bind jsNumber ≠ some 1 ∨
      (prop profile "infoHash").bind jsText ≠ some infoHash ∨
      (prop profile "unitBytes").bind jsNumber ≠ some 65536 then none
  else
    match (prop profile "ranges").bind list? with
    | none => none
    | some slots =>
      if slots.length ≠ 32 then none
      else
        match jsCollect units slots with
        | none => none
        | some ranges =>
          if jsOverlapping (ranges.insertionSort fun a b => a.1 ≤ b.1) then none else some ranges

/-- `{...p,version:1}`, of an object. -/
def withVersion (p : Tree) : Tree :=
  match p with
  | .obj fields => .obj (fields ++ [(units "version", .num [49])])
  | _ => .obj [(units "version", .num [49])]

def kindOf (p : Tree) : Option Units :=
  ((prop p "origin").bind fun origin => prop origin "kind").bind jsText

def hashOf (p : Tree) : Option Tree := (prop p "origin").bind fun origin => prop origin "sha256"

def utilizationOk (v : Tree) : Bool :=
  match jsNumber v with
  | some d => decide (¬(d ≤ 0 ∨ d > 1))
  | none => false

def metricOk (units : ℚ) (p : Tree) (name : String) : Bool :=
  match prop p name with
  | none => true
  | some v =>
    match jsNumber v with
    | some d => isSafe d && decide (¬(d < 0 ∨ d > units))
    | none => false

/-- One turn of the loop; `none` is `throw invalid()`. -/
def validateOne (infoHash : Units) (units : ℚ) (kinds : List Units) (p : Tree) :
    Option (List Units) :=
  if (prop p "version").bind jsNumber ≠ some 2 ∨ (prop p "infoHash").bind jsText ≠ some infoHash ∨
      (prop p "unitBytes").bind jsNumber ≠ some 65536 then none
  else
    match kindOf p with
    | none => none
    | some kind =>
      if kind ∉ [boot, fromState] ∨ kind ∈ kinds then none
      else if isHash infoHash = false then none
      else if kind = fromState ∧ (hashOf p).any testHash = false then none
      else if kind = boot ∧ (hashOf p).isSome = true then none
      else if (matchingRanges (withVersion p) infoHash units).isNone = true then none
      else if (prop p "minUtilization").all utilizationOk = false then none
      else if metrics.all (metricOk units p) = false then none
      else some (kind :: kinds)

def validateAll (infoHash : Units) (units : ℚ) : List Units → List Tree → Option Unit
  | _, [] => some ()
  | kinds, p :: rest =>
    match validateOne infoHash units kinds p with
    | none => none
    | some kinds' => validateAll infoHash units kinds' rest

def validateLoadProfiles (value : Tree) (infoHash : Units) (units : ℚ) : Option Tree :=
  match list? value with
  | none => none
  | some profiles =>
    if 2 < profiles.length then none
    else (validateAll infoHash units [] profiles).map fun _ => value

/-- `Math.ceil(size/65536)`. -/
def sizeUnits (size : Nat) : ℚ := ⌈(size : ℚ) / 65536⌉

/-- What `RemotePublication.profiles` makes of the bytes. -/
def profiles (data : Bytes) (disk : Units) (state : Bool) (units : ℚ) : Option Tree :=
  match parseBytes data with
  | none => none
  | some value =>
    match validateLoadProfiles value disk units with
    | none => none
    | some value =>
      if state = false ∧ ((list? value).getD []).any (fun p => kindOf p = some fromState) then none
      else some value

/-! ## §2. Names and numbers are read alike. -/

/-- Plain letters, as in the names and the values that are compared. -/
def Basic (text : Units) : Prop := ∀ c ∈ text, c < 0xD800

instance (text : Units) : Decidable (Basic text) := inferInstanceAs (Decidable (∀ c ∈ text, _))

/-- In the basic plane a character is one unit. -/
theorem flatMap_unitsOf {text : Units} (h : Basic text) (value : Units) :
    value.flatMap unitsOf = text ↔ value = text := by
  have hself : ∀ {t : Units}, Basic t → t.flatMap unitsOf = t := by
    intro t ht
    induction t with
    | nil => rfl
    | cons c t ih =>
      have hc := ht c List.mem_cons_self
      rw [List.flatMap_cons, ih fun d hd => ht d (List.mem_cons_of_mem _ hd), unitsOf,
        if_pos (by omega)]
      rfl
  constructor
  · intro heq
    have hvalue : Basic value := by
      intro c hc
      by_contra hlarge
      have hmem : ∀ u ∈ unitsOf c, u < 0xD800 := fun u hu =>
        h u (heq ▸ List.mem_flatMap.mpr ⟨c, hc, hu⟩)
      unfold unitsOf at hmem
      split at hmem
      · exact hlarge (hmem c List.mem_cons_self)
      · have := hmem _ List.mem_cons_self
        omega
    exact (hself hvalue).symm.trans heq
  · rintro rfl
    exact hself h

/-- There both programs read the same text. -/
theorem jsString_eq_iff {l text : Units} (h : Basic text) :
    jsString l = text ↔ codePoints l = text := by
  rw [jsString, flatMap_unitsOf h, codePoints_eq_iff h]

/-- A property of the object is the entry of the dictionary. -/
theorem prop_eq (p : Tree) {name : String} (h : Basic (units name)) :
    prop p name = dictGet p name := by
  cases p with
  | obj fields =>
    show (fields.reverse.find? _).map _ = (fields.reverse.find? _).map _
    congr 2
    funext f
    exact decide_eq_decide.mpr (jsString_eq_iff h)
  | _ => rfl

/-- What the seedbox reads as a text, the browser does, too. -/
theorem jsText_of_text {v : Tree} {text : Units} (hbasic : Basic text) (h : text? v = some text) :
    jsText v = some text := by
  cases v with
  | str l =>
    have hpoints : codePoints l = text := Option.some.inj h
    exact congrArg some ((jsString_eq_iff hbasic).mpr hpoints)
  | _ => cases h

/-- So an integer below `2 ^ 53`. -/
theorem jsNumber_of_int {v : Tree} {n : Int} (h : int? v = some n) (hn : |n| < 2 ^ 53) :
    jsNumber v = some (n : ℚ) := by
  cases v with
  | num l =>
    have hint : intValue l = some n := h
    show double (literalValue l) = _
    rw [literalValue, hint]
    exact double_int hn
  | _ => cases h

/-- Such an integer is safe. -/
theorem isSafe_int {n : Int} (h : |n| < 2 ^ 53) : isSafe (n : ℚ) = true := by
  rw [isSafe, decide_eq_true_eq, Int.floor_intCast]
  refine ⟨rfl, ?_⟩
  have hle : |n| ≤ 2 ^ 53 - 1 := by omega
  exact_mod_cast hle

/-- Only zero is the safe integer zero. -/
theorem safeInteger?_zero {x : Option ℚ} (h : safeInteger? x = some 0) : x = some 0 := by
  obtain ⟨d, rfl, hd⟩ := Option.bind_eq_some_iff.mp h
  split at hd
  next hsafe =>
    rw [isSafe, decide_eq_true_eq] at hsafe
    rw [← hsafe.1, Option.some.inj hd]
    rfl
  · cases hd

/-! ## §3. The ranges are the same. -/

def toNumbers (ranges : List (Int × Int)) : List (ℚ × ℚ) := ranges.map fun r => ((r.1 : ℚ), (r.2 : ℚ))

/-- So a pair of integers. -/
theorem jsPair_of_pair {v : Tree} {a b : Int} (h : pair? v = some (a, b)) (ha : |a| < 2 ^ 53)
    (hb : |b| < 2 ^ 53) : jsPair v = some ((a : ℚ), (b : ℚ)) := by
  unfold pair? at h
  split at h
  next x y =>
    obtain ⟨a', hx, hrest⟩ := Option.bind_eq_some_iff.mp h
    obtain ⟨b', hy, heq⟩ := Option.map_eq_some_iff.mp hrest
    obtain ⟨rfl, rfl⟩ := Prod.mk.inj heq
    rw [jsPair, jsNumber_of_int hx ha, jsNumber_of_int hy hb]
    rfl
  · cases h

/-- What is collected, within the disk. -/
theorem collect_mem {count : Nat} {slots : List Tree} {ranges : List (Int × Int)}
    (h : collect count slots = .ok ranges) : ∀ r ∈ ranges, 0 ≤ r.1 ∧ r.1 ≤ r.2 ∧ r.2 < count := by
  fun_induction collect count slots generalizing ranges with
  | case1 =>
    injection h with h
    subst h
    exact fun _ hr => by cases hr
  | case2 rest ih => exact ih h
  | case3 => cases h
  | case4 r rest _ a b hpair hin ih =>
    cases hrest : collect count rest with
    | error e =>
      rw [hrest] at h
      cases h
    | ok tail =>
      rw [hrest] at h
      injection h with h
      subst h
      intro r hr
      rcases List.mem_cons.mp hr with rfl | hr
      · exact hin
      · exact ih hrest r hr
  | case5 => cases h

/-- So the ranges. -/
theorem jsCollect_of_collect {count : Nat} (hcount : count ≤ 2 ^ 24) {slots : List Tree}
    {ranges : List (Int × Int)} (h : collect count slots = .ok ranges) :
    jsCollect count slots = some (toNumbers ranges) := by
  fun_induction collect count slots generalizing ranges with
  | case1 =>
    injection h with h
    subst h
    rfl
  | case2 rest ih =>
    rw [jsCollect]
    exact ih h
  | case3 => cases h
  | case4 r rest hnull a b hpair hin ih =>
    cases hrest : collect count rest with
    | error e =>
      rw [hrest] at h
      cases h
    | ok tail =>
      rw [hrest] at h
      injection h with h
      subst h
      have ha : |a| < 2 ^ 53 := by
        rw [abs_lt]
        omega
      have hb : |b| < 2 ^ 53 := by
        rw [abs_lt]
        omega
      have hinside : ¬(isSafe (a : ℚ) = false ∨ isSafe (b : ℚ) = false ∨ (a : ℚ) < 0 ∨
          (b : ℚ) < (a : ℚ) ∨ (b : ℚ) ≥ (count : ℚ)) := by
        rw [isSafe_int ha, isSafe_int hb]
        rintro (h | h | h | h | h)
        · cases h
        · cases h
        · exact absurd (by exact_mod_cast h : a < 0) (by omega)
        · exact absurd (by exact_mod_cast h : b < a) (by omega)
        · exact absurd (by exact_mod_cast h : (count : Int) ≤ b) (by omega)
      rw [jsCollect, jsPair_of_pair hpair ha hb, ih hrest]
      · dsimp only
        rw [if_neg hinside]
        rfl
      · exact hnull
  | case5 => cases h

/-- Adjacent ranges in order are all in order. -/
theorem pairwise_of_overlapping {ranges : List (Int × Int)} (hproper : ∀ r ∈ ranges, r.1 ≤ r.2)
    (h : overlapping ranges = false) : ranges.Pairwise fun a b => a.2 < b.1 := by
  fun_induction overlapping ranges with
  | case1 a b rest ih =>
    obtain ⟨hab, hrest⟩ := Bool.or_eq_false_iff.mp h
    have htail := ih (fun r hr => hproper r (List.mem_cons_of_mem _ hr)) hrest
    rw [decide_eq_false_iff_not, not_le] at hab
    have hb := hproper b (by simp)
    refine List.pairwise_cons.mpr ⟨fun r hr => ?_, htail⟩
    rcases List.mem_cons.mp hr with rfl | hr
    · exact hab
    · have := (List.pairwise_cons.mp htail).1 r hr
      omega
  | case2 ranges hshort =>
    rcases ranges with _ | ⟨a, _ | ⟨b, rest⟩⟩
    · exact .nil
    · exact List.pairwise_singleton _ a
    · exact absurd rfl (hshort a b rest)

/-- Ranges that are apart, sorted by where they start, are in order. -/
theorem pairwise_sorted {ranges : List (Int × Int)} (hproper : ∀ r ∈ ranges, r.1 ≤ r.2)
    (happart : ranges.Pairwise fun a b => a.2 < b.1 ∨ b.2 < a.1) :
    (ranges.insertionSort fun a b => a.1 ≤ b.1).Pairwise fun a b => a.2 < b.1 := by
  have : Std.Total fun a b : Int × Int => a.1 ≤ b.1 := ⟨fun a b => le_total a.1 b.1⟩
  have : IsTrans (Int × Int) fun a b => a.1 ≤ b.1 := ⟨fun _ _ _ hab hbc => hab.trans hbc⟩
  exact insertionSort_in_order (fun _ _ h => h) hproper happart

/-- Ranges in order do not overlap for the browser, either. -/
theorem jsOverlapping_of_pairwise {ranges : List (Int × Int)}
    (h : ranges.Pairwise fun a b => a.2 < b.1) : jsOverlapping (toNumbers ranges) = false := by
  induction ranges with
  | nil => rfl
  | cons a rest ih =>
    obtain ⟨ha, hrest⟩ := List.pairwise_cons.mp h
    cases rest with
    | nil => rfl
    | cons b rest =>
      have hab : ¬((a.2 : ℚ) ≥ (b.1 : ℚ)) := not_le.mpr (by exact_mod_cast ha b List.mem_cons_self)
      exact Bool.or_eq_false_iff.mpr ⟨decide_eq_false hab, ih hrest⟩

/-- **The two orders find the same overlaps.** -/
theorem jsOverlapping_of_overlapping {ranges : List (Int × Int)}
    (hproper : ∀ r ∈ ranges, r.1 ≤ r.2)
    (h : overlapping (ranges.insertionSort pairLe) = false) :
    jsOverlapping ((toNumbers ranges).insertionSort fun a b => a.1 ≤ b.1) = false := by
  have hperm := List.perm_insertionSort pairLe ranges
  have hordered := pairwise_of_overlapping (fun r hr => hproper r (hperm.mem_iff.mp hr)) h
  have happart : ranges.Pairwise fun a b => a.2 < b.1 ∨ b.2 < a.1 :=
    hperm.pairwise (hordered.imp fun hab => .inl hab) fun h => Or.symm h
  have hmap : (toNumbers ranges).insertionSort (fun a b => a.1 ≤ b.1) =
      toNumbers (ranges.insertionSort fun a b => a.1 ≤ b.1) :=
    (List.map_insertionSort (fun a b : Int × Int => a.1 ≤ b.1) (fun a b : ℚ × ℚ => a.1 ≤ b.1)
      (fun r => ((r.1 : ℚ), (r.2 : ℚ))) ranges fun a _ b _ => Int.cast_le.symm).symm
  rw [hmap]
  exact jsOverlapping_of_pairwise (pairwise_sorted hproper happart)

/-! ## §4. The validators agree. -/

/-- The name of the version has no escapes. -/
theorem jsString_version : jsString (units "version") = units "version" := by
  rw [jsString_eq_iff (by decide), codePoints_eq_iff (by decide)]
  exact Letters.utf16Value (by unfold Letters; decide)

/-- The version that is added covers up no other property. -/
theorem withVersion_prop {p : Tree} (hp : isDict p = true) (name : String)
    (hname : units "version" ≠ units name) : prop (withVersion p) name = prop p name := by
  cases p with
  | obj fields =>
    show ((fields ++ [_]).reverse.find? _).map _ = (fields.reverse.find? _).map _
    rw [List.reverse_append, List.reverse_singleton, List.singleton_append, List.find?_cons_of_neg]
    rw [decide_eq_true_eq, jsString_version]
    exact hname
  | _ => cases hp

/-- It is one. -/
theorem withVersion_version {p : Tree} (hp : isDict p = true) :
    (prop (withVersion p) "version").bind jsNumber = some 1 := by
  cases p with
  | obj fields =>
    have hprop : prop (withVersion (.obj fields)) "version" = some (.num [49]) := by
      show ((fields ++ [_]).reverse.find? _).map _ = _
      rw [List.reverse_append, List.reverse_singleton, List.singleton_append,
        List.find?_cons_of_pos]
      · rfl
      · rw [decide_eq_true_eq, jsString_version]
    have hone : jsNumber (.num [49]) = some ((1 : Int) : ℚ) := jsNumber_of_int rfl (by decide)
    rw [hprop, Option.bind_some, hone, Int.cast_one]
  | _ => cases hp

/-- What the first check of a profile says, on both sides. -/
structure Current (disk : Units) (p : Tree) : Prop where
  dict : isDict p = true
  version : (prop p "version").bind jsNumber = some 2
  infoHash : (prop p "infoHash").bind jsText = some disk
  unitBytes : (prop p "unitBytes").bind jsNumber = some 65536

/-- A profile that is current for the seedbox is current for the browser. -/
theorem current_of_isCurrent {disk : Units} (hdisk : Basic disk) {p : Tree}
    (h : isCurrent disk p = true) : Current disk p := by
  simp only [isCurrent, Bool.and_eq_true, decide_eq_true_eq] at h
  obtain ⟨⟨⟨hdict, hversion⟩, hhash⟩, hbytes⟩ := h
  have hint : ∀ {name : String} {n : Int}, Basic (units name) → |n| < 2 ^ 53 →
      (dictGet p name).bind int? = some n → (prop p name).bind jsNumber = some (n : ℚ) := by
    intro name n hbasic hn hget
    obtain ⟨v, hv, hv'⟩ := Option.bind_eq_some_iff.mp hget
    rw [prop_eq p hbasic, hv]
    exact jsNumber_of_int hv' hn
  refine ⟨hdict, ?_, ?_, ?_⟩
  · exact_mod_cast hint (by decide) (by decide) hversion
  · obtain ⟨v, hv, hv'⟩ := Option.bind_eq_some_iff.mp hhash
    rw [prop_eq p (by decide), hv]
    exact jsText_of_text hdisk hv'
  · exact_mod_cast hint (by decide) (by decide) hbytes

/-- **The browser sees the ranges that the seedbox has checked.** -/
theorem matchingRanges_of_ranges {disk : Units} (hne : disk ≠ []) {count : Nat}
    (hcount : count ≤ 2 ^ 24) {p : Tree} (hcurrent : Current disk p) {ranges : List (Int × Int)}
    (h : profileRanges count p = .ok ranges) :
    matchingRanges (withVersion p) disk count = some (toNumbers ranges) := by
  have hversion := withVersion_version hcurrent.dict
  have hhash := withVersion_prop hcurrent.dict "infoHash" (by decide)
  have hbytes := withVersion_prop hcurrent.dict "unitBytes" (by decide)
  have hslots := withVersion_prop hcurrent.dict "ranges" (by decide)
  have hranges : prop p "ranges" = dictGet p "ranges" := prop_eq p (by decide)
  unfold profileRanges at h
  unfold matchingRanges
  rw [hversion, hhash, hbytes, hslots, hcurrent.infoHash, hcurrent.unitBytes, hranges,
    if_neg (by simp [hne])]
  cases hlist : (dictGet p "ranges").bind list? with
  | none =>
    rw [hlist] at h
    cases h
  | some slots =>
    rw [hlist] at h
    dsimp only at h ⊢
    split at h
    · cases h
    next hlen =>
      rw [if_neg hlen]
      cases hcollect : collect count slots with
      | error e =>
        rw [hcollect] at h
        cases h
      | ok ordered =>
        rw [hcollect] at h
        dsimp only at h
        split at h
        · cases h
        next hoverlap =>
          injection h with h
          subst h
          have hproper : ∀ r ∈ ordered, r.1 ≤ r.2 := fun r hr => (collect_mem hcollect r hr).2.1
          have hjs := jsOverlapping_of_overlapping hproper (Bool.eq_false_iff.mpr hoverlap)
          rw [jsCollect_of_collect hcount hcollect]
          dsimp only
          rw [if_neg (Bool.eq_false_iff.mp hjs)]

/-- Its origin is one of the two kinds. -/
theorem kindOf_of_origin {p : Tree} {kind : Units} (h : originKind p = some kind) :
    kindOf p = some kind ∧ kind ∈ [boot, fromState] := by
  obtain ⟨hkind, hmem⟩ := Option.filter_eq_some_iff.mp h
  have hin : kind ∈ [boot, fromState] := of_decide_eq_true hmem
  have hbasic : Basic kind := by
    simp only [List.mem_cons, List.not_mem_nil, or_false] at hin
    rcases hin with rfl | rfl <;> decide
  obtain ⟨v, hv, htext⟩ := Option.bind_eq_some_iff.mp hkind
  obtain ⟨origin, horigin, hget⟩ := Option.bind_eq_some_iff.mp hv
  refine ⟨?_, hin⟩
  rw [kindOf, prop_eq p (by decide), horigin, Option.bind_some, prop_eq origin (by decide), hget,
    Option.bind_some]
  exact jsText_of_text hbasic htext

/-- Its hash is the same for both. -/
theorem hashOf_eq (p : Tree) : hashOf p = originHash p := by
  rw [hashOf, originHash, prop_eq p (by decide)]
  congr 1
  funext origin
  exact prop_eq origin (by decide)

/-- The hash of a state: 64 digits. -/
def isStateHash (text : Units) : Bool := decide (text.length = 64) && text.all isHashDigit

/-- A hash is in the basic plane. -/
theorem hash_basic {text : Units} (h : text.all isHashDigit = true) : Basic text := by
  intro c hc
  have hdigit := List.all_eq_true.mp h c hc
  simp only [isHashDigit, Bool.or_eq_true, Bool.and_eq_true, decide_eq_true_eq] at hdigit
  omega

/-- A hash passes the test of the browser. -/
theorem testHash_of_text {v : Tree} {text : Units} (hhash : isStateHash text = true)
    (h : text? v = some text) : testHash v = true := by
  have hall : text.all isHashDigit = true := (Bool.and_eq_true_iff.mp hhash).2
  cases v with
  | str l =>
    have hjs : jsString l = text := Option.some.inj (jsText_of_text (hash_basic hall) h)
    rw [testHash, hjs]
    exact hhash
  | _ => cases h

/-- So does the threshold. -/
theorem utilizationOk_of_isUtilization {v : Tree} (h : isUtilization v = true) :
    utilizationOk v = true := by
  cases v with
  | num l =>
    unfold isUtilization at h
    unfold utilizationOk
    dsimp only at h
    cases hint : intValue l with
    | some n =>
      rw [hint] at h
      obtain ⟨hpos, hle⟩ := of_decide_eq_true h
      have hone : n = 1 := by omega
      rw [jsNumber_of_int (v := .num l) hint (by rw [hone]; decide), hone]
      decide
    | none =>
      rw [hint] at h
      have hdouble := (Bool.and_eq_true_iff.mp h).2
      have hnumber : jsNumber (.num l) = double (literalValue l) := rfl
      rw [hnumber]
      cases hd : double (literalValue l) with
      | none =>
        rw [hd] at hdouble
        cases hdouble
      | some d =>
        rw [hd] at hdouble
        obtain ⟨hpos, hle⟩ := of_decide_eq_true hdouble
        refine decide_eq_true ?_
        rw [not_or, not_le, gt_iff_lt, not_lt]
        exact ⟨hpos, hle⟩
  | _ => cases h

/-- So does a metric. -/
theorem metricOk_of_isMetric {count : Nat} (hcount : count ≤ 2 ^ 24) {p : Tree} {name : String}
    (hbasic : Basic (units name)) (h : isMetric count p name = true) :
    metricOk count p name = true := by
  unfold isMetric at h
  unfold metricOk
  rw [prop_eq p hbasic]
  cases hget : dictGet p name with
  | none => rfl
  | some v =>
    rw [hget] at h
    dsimp only at h ⊢
    cases hint : int? v with
    | none =>
      rw [hint] at h
      cases h
    | some n =>
      rw [hint] at h
      obtain ⟨hpos, hle⟩ := of_decide_eq_true h
      have hn : |n| < 2 ^ 53 := by
        rw [abs_lt]
        omega
      rw [jsNumber_of_int hint hn]
      dsimp only
      rw [isSafe_int hn, Bool.true_and, decide_eq_true_eq, not_or, not_lt, gt_iff_lt, not_lt]
      exact ⟨by exact_mod_cast hpos, by exact_mod_cast hle⟩

/-- What is known of a publication whose profiles are checked. -/
structure Valid (disk : Units) (count : Nat) (stateHash : Option Units) : Prop where
  disk : isHash disk = true
  count : count ≤ 2 ^ 24
  state : ∀ h, stateHash = some h → isStateHash h = true

/-- The hash of a disk is in the basic plane, and not empty. -/
theorem Valid.basic {disk : Units} {count : Nat} {stateHash : Option Units}
    (h : Valid disk count stateHash) : Basic disk ∧ disk ≠ [] := by
  obtain ⟨hlen, hall⟩ := Bool.and_eq_true_iff.mp h.disk
  refine ⟨hash_basic hall, ?_⟩
  rintro rfl
  exact absurd (of_decide_eq_true hlen) (by decide)

/-- **One profile**: what the seedbox accepts, the browser accepts. -/
theorem validateOne_of_accepted {disk : Units} {count : Nat} {stateHash : Option Units}
    (hvalid : Valid disk count stateHash) {p : Tree} {kind : Units} {seen : List Units}
    (h : Accepted disk count stateHash p kind) (hfresh : kind ∉ seen) :
    validateOne disk count seen p = some (kind :: seen) := by
  obtain ⟨hbasic, hne⟩ := hvalid.basic
  have hcurrent := current_of_isCurrent hbasic h.current
  obtain ⟨hkind, hin⟩ := kindOf_of_origin h.origin
  obtain ⟨ranges, hranges⟩ := h.ranges
  have hmatch := matchingRanges_of_ranges hne hvalid.count hcurrent hranges
  unfold validateOne
  rw [hcurrent.version, hcurrent.infoHash, hcurrent.unitBytes, if_neg (by simp), hkind]
  dsimp only
  rw [if_neg (by simp only [not_or, not_not]; exact ⟨hin, hfresh⟩), if_neg (by rw [hvalid.disk]; simp),
    if_neg, if_neg, hmatch, if_neg (by simp), if_neg, if_neg]
  · intro hbad
    have hall : metrics.all (metricOk count p) = true := by
      refine List.all_eq_true.mpr fun name hname => ?_
      have hname' : Basic (units name) := by
        have hnames : ∀ name ∈ metrics, Basic (units name) := by decide
        exact hnames name hname
      exact metricOk_of_isMetric hvalid.count hname' (List.all_eq_true.mp h.metrics name hname)
    rw [hall] at hbad
    cases hbad
  · intro hbad
    have hutilization := h.utilization
    rw [prop_eq p (by decide)] at hbad
    cases hget : dictGet p "minUtilization" with
    | none =>
      rw [hget] at hbad
      cases hbad
    | some v =>
      rw [hget] at hbad hutilization
      rw [Option.all_some] at hbad hutilization
      rw [utilizationOk_of_isUtilization hutilization] at hbad
      cases hbad
  · rintro ⟨rfl, hsome⟩
    rw [hashOf_eq, h.noHash (by decide)] at hsome
    cases hsome
  · rintro ⟨hstate, hbad⟩
    obtain ⟨text, hhash, hget⟩ := h.hash hstate
    obtain ⟨v, hv, htext⟩ := Option.bind_eq_some_iff.mp hget
    rw [hashOf_eq, hv, Option.any_some, testHash_of_text (hvalid.state text hhash) htext] at hbad
    cases hbad

/-- **Profiles that the seedbox validates, the browser validates.** -/
theorem validateAll_of_each {disk : Units} {count : Nat} {stateHash : Option Units}
    (hvalid : Valid disk count stateHash) {items : List Tree} : ∀ {seen : List Units},
    validateEach disk count stateHash seen items = .ok () →
      validateAll disk count seen items = some () ∧
      ∀ p ∈ items, ∃ kind, Accepted disk count stateHash p kind := by
  induction items with
  | nil => exact fun _ => ⟨rfl, fun _ hp => by cases hp⟩
  | cons p rest ih =>
    intro seen h
    rw [validateEach] at h
    cases hp : validateProfile disk count stateHash seen p with
    | error e =>
      rw [hp] at h
      cases h
    | ok seen' =>
      rw [hp] at h
      obtain ⟨kind, haccepted, hfresh, rfl⟩ := validateProfile_ok hp
      obtain ⟨hall, hmem⟩ := ih h
      refine ⟨?_, fun q hq => ?_⟩
      · rw [validateAll, validateOne_of_accepted hvalid haccepted hfresh]
        exact hall
      · rcases List.mem_cons.mp hq with rfl | hq
        · exact ⟨kind, haccepted⟩
        · exact hmem q hq

/-- What both sides have accepted: the same tree, with the same ranges. -/
structure Agreed (disk : Units) (count : Nat) (state : Bool) (value : Tree) : Prop where
  accepted : validateLoadProfiles value disk count = some value
  published : state = false → ∀ p ∈ (list? value).getD [], kindOf p ≠ some fromState
  ranges : ∀ p ∈ (list? value).getD [], ∃ ranges, profileRanges count p = .ok ranges ∧
    matchingRanges (withVersion p) disk count = some (toNumbers ranges)

/-- **The two validators agree.** -/
theorem validate_of_validate {disk : Units} {header : Bytes} {stateHash : Option Units}
    (hvalid : Valid disk (headerUnits header) stateHash) {value v : Tree}
    (h : validateProfiles value disk header stateHash = .ok v) :
    v = value ∧ Agreed disk (headerUnits header) stateHash.isSome value := by
  unfold validateProfiles at h
  split at h
  · cases h
  next items hitems =>
    split at h
    · cases h
    next hlen =>
      split at h
      · cases h
      next hall =>
        injection h with h
        obtain ⟨hjs, hmem⟩ := validateAll_of_each hvalid hall
        refine ⟨h.symm, ?_, fun hstate p hp => ?_, fun p hp => ?_⟩
        · unfold validateLoadProfiles
          rw [hitems]
          dsimp only
          rw [if_neg hlen, hjs]
          rfl
        · rw [hitems] at hp
          obtain ⟨kind, haccepted⟩ := hmem p hp
          intro hkind
          rw [(kindOf_of_origin haccepted.origin).1] at hkind
          obtain ⟨t, ht, -⟩ := haccepted.hash (Option.some.inj hkind)
          rw [ht] at hstate
          cases hstate
        · rw [hitems] at hp
          obtain ⟨kind, haccepted⟩ := hmem p hp
          obtain ⟨ranges, hranges⟩ := haccepted.ranges
          obtain ⟨hbasic, hne⟩ := hvalid.basic
          exact ⟨ranges, hranges, matchingRanges_of_ranges hne hvalid.count
            (current_of_isCurrent hbasic haccepted.current) hranges⟩

/-! ## §5. The bytes. -/

/-- The number of units is the rounded quotient. -/
theorem sizeUnits_nat (size : Nat) : sizeUnits size = (((size + 65535) / 65536 : ℕ) : ℚ) := by
  unfold sizeUnits
  have hlow : size ≤ (size + 65535) / 65536 * 65536 := by omega
  have hhigh : (size + 65535) / 65536 * 65536 < size + 65536 := by omega
  generalize (size + 65535) / 65536 = n at *
  have hceil : ⌈(size : ℚ) / 65536⌉ = (n : ℤ) := by
    rw [Int.ceil_eq_iff, lt_div_iff₀ (by norm_num), div_le_iff₀ (by norm_num)]
    have hlow' : (size : ℚ) ≤ n * 65536 := by exact_mod_cast hlow
    have hhigh' : (n : ℚ) * 65536 < size + 65536 := by exact_mod_cast hhigh
    constructor
    · push_cast
      linarith
    · push_cast
      linarith
  rw [hceil]
  rfl

/-- Both programs take it from the header. -/
theorem sizeUnits_eq (header : Bytes) :
    sizeUnits (headerSize header) = ((headerUnits header : ℕ) : ℚ) := sizeUnits_nat _

/-- UTF-8 that is taken for UTF-8, in which no number is spelled `NaN` or `Infinity`. -/
def Plain (data : Bytes) : Prop :=
  Portable data ∧ ∀ v, loadsBytes data = some v → finite v = true

/-- The browser can use the profiles as the seedbox has read them. -/
def Usable (data : Bytes) (disk : Units) (header : Bytes) (stateHash : Option Units) (v : Tree) :
    Prop :=
  profiles data disk stateHash.isSome (sizeUnits (headerSize header)) = some v ∧
    ∀ p ∈ (list? v).getD [], ∃ ranges, profileRanges (headerUnits header) p = .ok ranges ∧
      matchingRanges (withVersion p) disk (sizeUnits (headerSize header)) = some (toNumbers ranges)

/-- **When published profiles are usable.**  What the seedbox has accepted, for a valid header and
valid hashes, the browser accepts with the same ranges exactly when the bytes are plain. -/
theorem profiles_iff {data header : Bytes} {disk : Units} {stateHash : Option Units} {v : Tree}
    (hheader : headerSize header ≤ 2 ^ 40) (hdisk : isHash disk = true)
    (hstate : ∀ h, stateHash = some h → isStateHash h = true)
    (h : checkProfiles data disk header stateHash = .ok v) :
    Usable data disk header stateHash v ↔ Plain data := by
  have hvalid : Valid disk (headerUnits header) stateHash := by
    refine ⟨hdisk, ?_, hstate⟩
    unfold headerUnits
    omega
  unfold checkProfiles readProfiles at h
  split at h
  · cases h
  next value hread =>
    split at hread
    · cases hread
    next hlen =>
      split at hread
      · cases hread
      next value' hloads =>
        injection hread with hvalue
        subst hvalue
        obtain ⟨rfl, hagreed⟩ := validate_of_validate hvalid h
        unfold Usable profiles
        rw [sizeUnits_eq]
        constructor
        · rintro ⟨hprofiles, -⟩
          split at hprofiles
          · cases hprofiles
          next tree htree =>
            have htree' := loads_of_parse htree
            obtain rfl := Option.some.inj (htree'.symm.trans hloads)
            obtain ⟨hportable, hfinite⟩ := (parse_iff hloads).mp htree
            refine ⟨hportable, fun w hw => ?_⟩
            obtain rfl := Option.some.inj (hloads.symm.trans hw)
            exact hfinite
        · rintro ⟨hportable, hfinite⟩
          rw [(parse_iff hloads).mpr ⟨hportable, hfinite _ hloads⟩]
          dsimp only
          rw [hagreed.accepted]
          dsimp only
          rw [if_neg]
          · exact ⟨rfl, hagreed.ranges⟩
          · rintro ⟨hnone, hany⟩
            obtain ⟨p, hp, hkind⟩ := List.any_eq_true.mp hany
            exact hagreed.published hnone p hp (of_decide_eq_true hkind)

/-- The text of one boot profile with one range, and a note that nobody reads. -/
def demoData (note : Units) : Bytes :=
  ([units "[\x7b\"version\":2,", units "\"infoHash\":\"", List.replicate 40 97, units "\",",
    units "\"unitBytes\":65536,", units "\"origin\":", units "\x7b\"kind\":\"boot\"\x7d,",
    units "\"note\":", note, units ",\"ranges\":[[0,1]",
    (List.replicate 31 (units ",null")).flatten, units "]\x7d]"].flatten).map UInt8.ofNat

def demoDisk : Units := List.replicate 40 97

/-- A header whose size is two units. -/
def demoHeader : Bytes := List.replicate 16 0 ++ [0, 0, 2, 0, 0, 0, 0, 0]

/-- The profiles of the demo are plain. -/
theorem demo_plain : Plain (demoData (units "0.5")) := by
  have hportable : Portable (demoData (units "0.5")) := by
    unfold Portable
    decide +kernel
  have hfinite : (loadsBytes (demoData (units "0.5"))).all finite = true := by decide +kernel
  refine ⟨hportable, fun v hv => ?_⟩
  rw [hv] at hfinite
  exact hfinite

/-- They are accepted and usable. -/
theorem demo_usable : ∃ v, checkProfiles (demoData (units "0.5")) demoDisk demoHeader none = .ok v ∧
    Usable (demoData (units "0.5")) demoDisk demoHeader none v := by
  have hok : (checkProfiles (demoData (units "0.5")) demoDisk demoHeader none).isOk = true := by
    decide +kernel
  cases h : checkProfiles (demoData (units "0.5")) demoDisk demoHeader none with
  | error e =>
    rw [h] at hok
    cases hok
  | ok v =>
    refine ⟨v, rfl, (profiles_iff (by decide) (by decide) (fun _ hnone => ?_) h).mpr demo_plain⟩
    cases hnone

/-- **A note that is `NaN`**: the seedbox publishes the profile and no browser can use it. -/
theorem note_unusable :
    (checkProfiles (demoData (units "NaN")) demoDisk demoHeader none).isOk = true ∧
      profiles (demoData (units "NaN")) demoDisk false (sizeUnits (headerSize demoHeader)) = none := by
  have hread : (loadsBytes (demoData (units "NaN"))).all (fun v => !finite v) = true := by
    decide +kernel
  refine ⟨by decide +kernel, ?_⟩
  cases hparse : parseBytes (demoData (units "NaN")) with
  | none => rw [profiles, hparse]
  | some v =>
    have hloads := loads_of_parse hparse
    have hfinite := ((parse_iff hloads).mp hparse).2
    rw [hloads, Option.all_some, hfinite] at hread
    cases hread

end My98.Web.LoadProfiles
