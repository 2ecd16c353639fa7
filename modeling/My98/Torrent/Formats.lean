/-
  My98.Torrent.Formats — the load profiles as the seedbox checks them
  (`src/torrent/my98_torrent/formats.py`: `validate_profiles`, `read_profiles`).

  Load profiles are public hints: a list of at most two objects, each with the ranges of the disk
  that a start from the boot or from the saved state reads first.  The check is made when a
  component is imported and again when a publication is adopted.
-/
import Mathlib
import My98.Lib.Double
import My98.Torrent.JsonBytes

namespace My98.Torrent.Formats

open My98.Lib My98.Lib.JsonText My98.Torrent.DescriptorText

/-! ## §1. What a tree stands for. -/

/-- A decimal literal: the digits, and where the point and the exponent put it. -/
def decimalValue (l : Units) : ℚ :=
  let (sign, text) := signPart [45] l
  match intPart text with
  | none => 0
  | some (int, text) =>
    let (frac, text) := fracPart text
    let (exp, _) := expPart text
    let digits : ℚ := natValue (int ++ frac.drop 1)
    let power : ℤ :=
      match exp.drop 1 with
      | [] => 0
      | c :: ds => if c = 45 then -(natValue ds : ℤ) else if c = 43 then natValue ds else natValue (c :: ds)
    (if sign = [] then digits else -digits) * 10 ^ (power - (frac.drop 1).length)

/-- The number a literal spells. -/
def literalValue (l : Units) : ℚ :=
  match intValue l with
  | some n => n
  | none => decimalValue l

/-- `d.get(name)`: of two fields of one name, the last. -/
def lookupField (spell : Units → Units) (fields : List (Units × Tree)) (name : Units) : Option Tree :=
  (fields.reverse.find? fun f => spell f.1 = name).map (·.2)

/-- `p.get(name)`, for a dictionary. -/
def dictGet (p : Tree) (name : String) : Option Tree :=
  match p with
  | .obj fields => lookupField codePoints fields (units name)
  | _ => none

def isDict : Tree → Bool
  | .obj _ => true
  | _ => false

def text? : Tree → Option Units
  | .str l => some (codePoints l)
  | _ => none

/-- The items of a list. -/
def list? : Tree → Option (List Tree)
  | .arr items => some items
  | _ => none

/-- `0 < x <= 1`, for an `int` or a `float`.  It is false of `NaN`. -/
def isUtilization : Tree → Bool
  | .num l =>
    match intValue l with
    | some n => decide (0 < n ∧ n ≤ 1)
    | none =>
      decide (l ∉ nonFinite) &&
        match double (literalValue l) with
        | some d => decide (0 < d ∧ d ≤ 1)
        | none => false
  | _ => false

/-! ## §2. The check. -/

/-- `struct.unpack_from('<Q', header, 16)[0]`. -/
def headerSize (header : Bytes) : Nat := leNat ((header.drop 16).take 8)

def headerUnits (header : Bytes) : Nat := (headerSize header + 65535) / 65536

/-- `[a, b]` of two integers. -/
def pair? : Tree → Option (Int × Int)
  | .arr [x, y] => (int? x).bind fun a => (int? y).map fun b => (a, b)
  | _ => none

/-- The loop over `ranges`, which leaves out the empty slots. -/
def collect (units : Nat) : List Tree → Except Failure (List (Int × Int))
  | [] => .ok []
  | .null :: rest => collect units rest
  | r :: rest =>
    match pair? r with
    | none => .error (failed "Invalid load profile range")
    | some (a, b) =>
      if 0 ≤ a ∧ a ≤ b ∧ b < units then (collect units rest).map ((a, b) :: ·)
      else .error (failed "Invalid load profile range")

/-- The order of lists of two numbers. -/
def pairLe (a b : Int × Int) : Prop := a.1 < b.1 ∨ a.1 = b.1 ∧ a.2 ≤ b.2

instance (a b : Int × Int) : Decidable (pairLe a b) := inferInstanceAs (Decidable (_ ∨ _ ∧ _))

/-- `any(a[1] >= b[0] for a, b in zip(ordered, ordered[1:]))`. -/
def overlapping : List (Int × Int) → Bool
  | a :: b :: rest => decide (a.2 ≥ b.1) || overlapping (b :: rest)
  | _ => false

def profileRanges (units : Nat) (p : Tree) : Except Failure (List (Int × Int)) :=
  match (dictGet p "ranges").bind list? with
  | none => .error (failed "Load profiles require 32 range slots")
  | some slots =>
    if slots.length ≠ 32 then .error (failed "Load profiles require 32 range slots")
    else
      match collect units slots with
      | .error e => .error e
      | .ok ordered =>
        if overlapping (ordered.insertionSort pairLe) then
          .error (failed "Overlapping load profile ranges")
        else .ok ordered

/-- A metric that is there is a number of units. -/
def isMetric (units : Nat) (p : Tree) (name : String) : Bool :=
  match dictGet p name with
  | none => true
  | some v =>
    match int? v with
    | some n => decide (0 ≤ n ∧ n ≤ units)
    | none => false

def metrics : List String := ["observedUnits", "coveredUnits", "downloadUnits"]

def boot : Units := units "boot"
def fromState : Units := units "state"

/-- The kind of the origin, if it is one of the two. -/
def originKind (p : Tree) : Option Units :=
  (((dictGet p "origin").bind fun origin => dictGet origin "kind").bind text?).filter
    fun kind => kind ∈ [boot, fromState]

def originHash (p : Tree) : Option Tree := (dictGet p "origin").bind fun origin => dictGet origin "sha256"

/-- The fields that bind the profile to a disk. -/
def isCurrent (disk : Units) (p : Tree) : Bool :=
  isDict p && decide ((dictGet p "version").bind int? = some 2) &&
    decide ((dictGet p "infoHash").bind text? = some disk) &&
    decide ((dictGet p "unitBytes").bind int? = some 65536)

/-- One turn of the loop over the profiles; `seen` are the kinds so far. -/
def validateProfile (disk : Units) (units : Nat) (stateHash : Option Units) (seen : List Units)
    (p : Tree) : Except Failure (List Units) :=
  if isCurrent disk p = false then
    .error (failed "Load profile must use version 2 and the current disk infohash")
  else
    match originKind p with
    | none => .error (failed "Invalid or duplicate load profile origin")
    | some kind =>
      if kind ∈ seen then .error (failed "Invalid or duplicate load profile origin")
      else if kind = fromState ∧ (stateHash = none ∨ stateHash = some [] ∨
          (originHash p).bind text? ≠ stateHash) then
        .error (failed "Load profile does not match the published state")
      else if kind ≠ fromState ∧ (originHash p).isSome = true then
        .error (failed "Boot profile cannot name a state")
      else
        match profileRanges units p with
        | .error e => .error e
        | .ok _ =>
          if metrics.all (isMetric units p) = false then .error (failed "Invalid load profile metric")
          else if (dictGet p "minUtilization").all isUtilization = false then
            .error (failed "Invalid load profile utilization")
          else .ok (kind :: seen)

def validateEach (disk : Units) (units : Nat) (stateHash : Option Units) :
    List Units → List Tree → Except Failure Unit
  | _, [] => .ok ()
  | seen, p :: rest =>
    match validateProfile disk units stateHash seen p with
    | .error e => .error e
    | .ok seen' => validateEach disk units stateHash seen' rest

/-- `validate_profiles(value, disk, header, state_hash)`. -/
def validateProfiles (value : Tree) (disk : Units) (header : Bytes) (stateHash : Option Units) :
    Except Failure Tree :=
  match list? value with
  | none => .error (failed "Invalid load profile list")
  | some profiles =>
    if 2 < profiles.length then .error (failed "Invalid load profile list")
    else
      match validateEach disk (headerUnits header) stateHash [] profiles with
      | .error e => .error e
      | .ok _ => .ok value

/-- `read_profiles(data)`. -/
def readProfiles (data : Bytes) : Except Failure Tree :=
  if 65536 < data.length then .error (failed "Load profiles exceed 64 KiB")
  else
    match loadsBytes data with
    | none => .error (failed "Invalid load profiles JSON")
    | some value => .ok value

/-- The check made at import and at adoption. -/
def checkProfiles (data : Bytes) (disk : Units) (header : Bytes) (stateHash : Option Units) :
    Except Failure Tree :=
  match readProfiles data with
  | .error e => .error e
  | .ok value => validateProfiles value disk header stateHash

/-! ## §3. What is accepted. -/

/-- A profile that is accepted, and its kind. -/
structure Accepted (disk : Units) (units : Nat) (stateHash : Option Units) (p : Tree)
    (kind : Units) : Prop where
  current : isCurrent disk p = true
  origin : originKind p = some kind
  hash : kind = fromState → ∃ h, stateHash = some h ∧ (originHash p).bind text? = some h
  noHash : kind ≠ fromState → originHash p = none
  ranges : ∃ ranges, profileRanges units p = .ok ranges
  metrics : metrics.all (isMetric units p) = true
  utilization : (dictGet p "minUtilization").all isUtilization = true

theorem validateProfile_ok {disk : Units} {units : Nat} {stateHash : Option Units}
    {seen seen' : List Units} {p : Tree}
    (h : validateProfile disk units stateHash seen p = .ok seen') :
    ∃ kind, Accepted disk units stateHash p kind ∧ kind ∉ seen ∧ seen' = kind :: seen := by
  unfold validateProfile at h
  split at h
  · cases h
  next hcurrent =>
    split at h
    · cases h
    next kind hkind =>
      split at h
      · cases h
      next hfresh =>
        split at h
        · cases h
        next hstate =>
          split at h
          · cases h
          next hboot =>
            split at h
            · cases h
            next ranges hranges =>
              split at h
              · cases h
              next hmetrics =>
                split at h
                · cases h
                next hutilization =>
                  injection h with h
                  refine ⟨kind, ⟨by simpa using hcurrent, hkind, fun heq => ?_, fun hne => ?_,
                    ⟨ranges, hranges⟩, by simpa using hmetrics, by simpa using hutilization⟩,
                    hfresh, h.symm⟩
                  · cases hs : stateHash with
                    | none => exact absurd ⟨heq, .inl hs⟩ hstate
                    | some t =>
                      refine ⟨t, rfl, ?_⟩
                      by_contra hdiffer
                      exact hstate ⟨heq, .inr (.inr (hs ▸ hdiffer))⟩
                  · cases hh : originHash p with
                    | none => rfl
                    | some v => exact absurd ⟨hne, by rw [hh]; rfl⟩ hboot

/-- **What is asked of a profile is enough.** -/
theorem validateProfile_of_accepted {disk : Units} {units : Nat} {stateHash : Option Units}
    {seen : List Units} {p : Tree} {kind : Units} (h : Accepted disk units stateHash p kind)
    (hhash : kind = fromState → stateHash ≠ some []) (hfresh : kind ∉ seen) :
    validateProfile disk units stateHash seen p = .ok (kind :: seen) := by
  obtain ⟨ranges, hranges⟩ := h.ranges
  have hstate : ¬(kind = fromState ∧ (stateHash = none ∨ stateHash = some [] ∨
      (originHash p).bind text? ≠ stateHash)) := by
    rintro ⟨hkind, hbad⟩
    obtain ⟨t, ht, htext⟩ := h.hash hkind
    rcases hbad with hbad | hbad | hbad
    · rw [ht] at hbad
      cases hbad
    · exact hhash hkind hbad
    · exact hbad (htext.trans ht.symm)
  have hboot : ¬(kind ≠ fromState ∧ (originHash p).isSome = true) := by
    rintro ⟨hkind, hbad⟩
    rw [h.noHash hkind] at hbad
    cases hbad
  unfold validateProfile
  rw [h.current, if_neg (by simp), h.origin]
  dsimp only
  rw [if_neg hfresh, if_neg hstate, if_neg hboot, hranges]
  dsimp only
  rw [h.metrics, if_neg (by simp), h.utilization, if_neg (by simp)]

end My98.Torrent.Formats
