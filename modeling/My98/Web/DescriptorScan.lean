/-
  My98.Web.DescriptorScan — the descriptor as the browser reads it
  (`src/disk/web/torrent-protocol.js`: `parseDescriptor`).

  `JSON.parse` keeps the last of two fields of one name and rounds numbers.  So the browser goes over
  the text a second time, character by character: it counts brackets, finds the names at depth one, and
  looks at what stands behind `"version":`.  On a text that `JSON.parse` has accepted this scan sees
  exactly the fields of the outer object, whatever is nested in them.

    • `scan`         — the loop, and `parseDescriptor`, which calls it;
    • `scan_value`   — a value is passed over, at any depth;
    • `scan_members` — the fields of the outer object are checked one by one (`checkFields`);
    • `scan_object`  — **the whole text**.
-/
import Mathlib
import My98.Web.LoadProfiles
import My98.Web.TorrentProtocol

namespace My98.Web.Descriptor

open My98.Lib My98.Lib.JsonText My98.Torrent.DescriptorText My98.Torrent.Formats

/-! ## §1. The code. -/

/-- `\s`. -/
def isJsSpace (c : Nat) : Bool :=
  decide (c ∈ [9, 10, 11, 12, 13, 32, 0xA0, 0x1680, 0x2028, 0x2029, 0x202F, 0x205F, 0x3000, 0xFEFF]) ||
    (0x2000 ≤ c && c ≤ 0x200A)

/-- `/^\s*1\s*[,}]/.test(text)`. -/
def exactOne (text : Units) : Bool :=
  match text.dropWhile isJsSpace with
  | [] => false
  | c :: rest =>
    decide (c = 49) &&
      match rest.dropWhile isJsSpace with
      | [] => false
      | d :: _ => decide (d = 44 ∨ d = 125)

def duplicate : Fail := invalid "Duplicate publication descriptor field"

def inexact : Fail := invalid "Descriptor version must be an exact JSON integer"

/-- What `JSON.parse` throws. -/
def syntaxError : Fail := ⟨"", "SyntaxError"⟩

/-- Where the loop is: outside of strings, or inside of one, with what it has passed of it. -/
inductive Mode where
  | outside
  | inside (passed : Units)
  /-- Behind a backslash. -/
  | escaped (passed : Units)

/-- A string has ended, and `rest` is behind its quote. -/
def closeString (depth : ℤ) (seen : List Units) (passed rest : Units) : Except Fail (List Units) :=
  match rest.dropWhile isJsSpace with
  | [] => .ok seen
  | c :: after =>
    if depth = 1 ∧ c = 58 then
      match parse words (34 :: (passed ++ [34])) with
      | some (.str l) =>
        if utf16Value l ∈ seen then .error duplicate
        else if utf16Value l = version ∧ exactOne after = false then .error inexact
        else .ok (utf16Value l :: seen)
      | _ => .error syntaxError
    else .ok seen

/-- The loop over `text`. -/
def scan : ℤ → List Units → Mode → Units → Except Fail Unit
  | _, _, _, [] => .ok ()
  | depth, seen, .outside, c :: rest =>
    if c = 34 then scan depth seen (.inside []) rest
    else if c = 123 ∨ c = 91 then scan (depth + 1) seen .outside rest
    else if c = 125 ∨ c = 93 then scan (depth - 1) seen .outside rest
    else scan depth seen .outside rest
  | depth, seen, .inside passed, c :: rest =>
    if c = 92 then scan depth seen (.escaped passed) rest
    else if c = 34 then
      match closeString depth seen passed rest with
      | .error e => .error e
      | .ok seen => scan depth seen .outside rest
    else scan depth seen (.inside (passed ++ [c])) rest
  | depth, seen, .escaped passed, c :: rest => scan depth seen (.inside (passed ++ [92, c])) rest

/-- `keysAre(value, keys)`, of what `JSON.parse` has returned. -/
def keysAre (value : Tree) (keys : List Units) : Bool :=
  match value with
  | .obj fields =>
    let own := (fields.map fun f => utf16Value f.1).dedup
    decide (own.length = keys.length) && keys.all fun k => decide (k ∈ own)
  | _ => false

/-- `value[name]`. -/
def prop (value : Tree) (name : Units) : Option Tree :=
  match value with
  | .obj fields => lookupField utf16Value fields name
  | _ => none

/-- `infoHash(value)`. -/
def infoHash : Option Tree → Except Fail HashText
  | some (.str l) =>
    match hashText? (utf16Value l) with
    | some h => .ok h
    | none => .error (invalid "Invalid canonical hexadecimal value")
  | _ => .error (invalid "Invalid canonical hexadecimal value")

/-- A component that may be `null`. -/
def component : Option Tree → Except Fail (Option HashText)
  | some .null => .ok none
  | v => (infoHash v).map some

/-- After `decoder.decode(bytes)`. -/
def parseText (text : Units) : Except Fail Value :=
  match parse words text with
  | none => .error (invalid "Invalid publication descriptor JSON")
  | some value =>
    if keysAre value names = false ∨ (prop value version).bind LoadProfiles.jsNumber ≠ some 1 then
      .error (invalid "Invalid publication descriptor fields")
    else do
      scan 0 [] .outside text
      let disk ← infoHash (prop value disk)
      let state ← component (prop value state)
      let profile ← component (prop value profile)
      pure ⟨disk, state, profile⟩

/-- `parseDescriptor(input)` of bytes.  A JavaScript string is a list of UTF-16 code units. -/
def parseDescriptor (data : Bytes) : Except Fail Value :=
  if 4096 < data.length then .error (invalid "Invalid descriptor size")
  else
    match decodeText data with
    | none => .error (invalid "Invalid publication descriptor JSON")
    | some text => parseText (utf16 text)

/-! ## §2. Characters. -/

/-- Neither a quote nor a bracket. -/
def Quiet (text : Units) : Prop := ∀ c ∈ text, c ≠ 34 ∧ c ≠ 123 ∧ c ≠ 91 ∧ c ≠ 125 ∧ c ≠ 93

/-- **Other characters are passed over.** -/
theorem scan_quiet {text : Units} (h : Quiet text) (depth : ℤ) (seen : List Units) (rest : Units) :
    scan depth seen .outside (text ++ rest) = scan depth seen .outside rest := by
  induction text with
  | nil => rfl
  | cons c text ih =>
    obtain ⟨hquote, hbrace, hbracket, hbrace', hbracket'⟩ := h c List.mem_cons_self
    have htail := ih fun d hd => h d (List.mem_cons_of_mem _ hd)
    rw [List.cons_append, scan, if_neg hquote, if_neg (by omega), if_neg (by omega)]
    exact htail

theorem space_cases {c : Nat} (h : isSpace c = true) : c = 32 ∨ c = 9 ∨ c = 10 ∨ c = 13 := by
  simpa [isSpace, or_assoc] using h

theorem space_quiet {sp : Units} (h : Space sp) : Quiet sp := by
  intro c hc
  have hcases := space_cases (h c hc)
  omega

/-- White space of JSON is white space of JavaScript. -/
theorem dropWhile_space {sp : Units} (h : Space sp) (rest : Units) :
    (sp ++ rest).dropWhile isJsSpace = rest.dropWhile isJsSpace := by
  refine List.dropWhile_append_of_pos fun c hc => ?_
  rcases space_cases (h c hc) with rfl | rfl | rfl | rfl
  · rfl
  · rfl
  · rfl
  · rfl

/-- The characters of a number. -/
theorem number_chars {l : Units} (h : IsNumber l) :
    ∀ c ∈ l, isNumeral c = true ∨ c ∈ [43, 45, 46, 69, 101] := by
  obtain ⟨s, i, f, e, rfl, hs, hi, hf, he⟩ := h
  have hsign : ∀ c ∈ s, c ∈ [43, 45, 46, 69, 101] := by
    rcases hs with rfl | rfl
    · decide
    · decide
  have hint : ∀ c ∈ i, isNumeral c = true := by
    rcases hi with rfl | ⟨hi, -⟩
    · decide
    · exact hi.all
  have hfrac : ∀ c ∈ f, isNumeral c = true ∨ c ∈ [43, 45, 46, 69, 101] := by
    rcases hf with rfl | ⟨ds, rfl, hds⟩
    · intro c hc
      cases hc
    · intro c hc
      rcases List.mem_cons.mp hc with rfl | hc
      · exact Or.inr (by decide)
      · exact Or.inl (hds.all c hc)
  have hexp : ∀ c ∈ e, isNumeral c = true ∨ c ∈ [43, 45, 46, 69, 101] := by
    rcases he with rfl | ⟨c', s', ds, rfl, hc', hs', hds⟩
    · intro c hc
      cases hc
    · intro c hc
      rcases List.mem_cons.mp hc with rfl | hc
      · rcases hc' with rfl | rfl
        · exact Or.inr (by decide)
        · exact Or.inr (by decide)
      · rcases List.mem_append.mp hc with hc | hc
        · right
          rcases hs' with rfl | rfl | rfl
          · cases hc
          · rw [List.mem_singleton.mp hc]
            decide
          · rw [List.mem_singleton.mp hc]
            decide
        · exact Or.inl (hds.all c hc)
  intro c hc
  simp only [List.mem_append] at hc
  rcases hc with ((hc | hc) | hc) | hc
  · exact Or.inr (hsign c hc)
  · exact Or.inl (hint c hc)
  · exact hfrac c hc
  · exact hexp c hc

/-- Such a character is no white space, no bracket, and nothing that ends a field. -/
theorem number_char {c : Nat} (h : isNumeral c = true ∨ c ∈ [43, 45, 46, 69, 101]) :
    isJsSpace c = false ∧ c ≠ 34 ∧ c ≠ 123 ∧ c ≠ 91 ∧ c ≠ 125 ∧ c ≠ 93 ∧ c ≠ 44 ∧ c ≠ 58 := by
  have hrange : (48 ≤ c ∧ c ≤ 57) ∨ c = 43 ∨ c = 45 ∨ c = 46 ∨ c = 69 ∨ c = 101 := by
    rcases h with h | h
    · simp only [isNumeral, Bool.and_eq_true, decide_eq_true_eq] at h
      exact Or.inl h
    · simp only [List.mem_cons, List.not_mem_nil, or_false] at h
      exact Or.inr h
  refine ⟨?_, by omega, by omega, by omega, by omega, by omega, by omega, by omega⟩
  simp only [isJsSpace, List.mem_cons, List.not_mem_nil, or_false, Bool.or_eq_false_iff, decide_eq_false_iff_not,
    Bool.and_eq_false_iff]
  omega

theorem number_quiet {l : Units} (h : IsNumber l) : Quiet l := by
  intro c hc
  obtain ⟨-, hquote, hbrace, hbracket, hbrace', hbracket', -, -⟩ := number_char (number_chars h c hc)
  exact ⟨hquote, hbrace, hbracket, hbrace', hbracket'⟩

theorem words_quiet {l : Units} {v : Tree} (h : (l, v) ∈ words) : Quiet l := by
  have hall : ∀ e ∈ words, ∀ c ∈ e.1, c ≠ 34 ∧ c ≠ 123 ∧ c ≠ 91 ∧ c ≠ 125 ∧ c ≠ 93 := by
    intro e he
    simp only [words, List.mem_cons, List.not_mem_nil, or_false] at he
    rcases he with rfl | rfl | rfl
    · decide
    · decide
    · decide
  exact hall (l, v) h

/-! ## §3. Values are passed over. -/

section Scan

variable {depth : ℤ} {seen : List Units}

/-- No name is behind this. -/
def NoColon (rest : Units) : Prop := ∀ c after, rest.dropWhile isJsSpace = c :: after → c ≠ 58

theorem noColon_append {sp rest : Units} {d : Nat} (hsp : Space sp) (hd : isJsSpace d = false)
    (hne : d ≠ 58) : NoColon (sp ++ d :: rest) := by
  intro c after h
  rw [dropWhile_space hsp, List.dropWhile_cons_of_neg (by simp [hd])] at h
  obtain ⟨rfl, -⟩ := List.cons.inj h
  exact hne

theorem closeString_same {passed rest : Units} (h : depth ≠ 1 ∨ NoColon rest) :
    closeString depth seen passed rest = .ok seen := by
  unfold closeString
  split
  · rfl
  next c after hnext =>
    refine if_neg fun hname => ?_
    rcases h with hdepth | hcolon
    · exact hdepth hname.1
    · exact hcolon c after hnext hname.2

theorem scan_chars {l : Units} (h : Chars l) (passed rest : Units) :
    scan depth seen (.inside passed) (l ++ rest) = scan depth seen (.inside (passed ++ l)) rest := by
  induction h generalizing passed with
  | nil => rw [List.append_nil, List.nil_append]
  | @plain c l hc h ih =>
    rw [List.cons_append, scan, if_neg hc.2.2, if_neg hc.2.1, ih, List.append_assoc]
    rfl
  | @escape e l he h ih =>
    rw [List.cons_append, List.cons_append, scan, if_pos rfl, scan, ih, List.append_assoc]
    rfl

/-- **A string**, with the quote that ends it. -/
theorem scan_string {l : Units} (h : Chars l) (rest : Units) :
    scan depth seen .outside (34 :: (l ++ 34 :: rest)) =
      match closeString depth seen l rest with
      | .error e => .error e
      | .ok seen => scan depth seen .outside rest := by
  rw [scan, if_pos rfl, scan_chars h, List.nil_append, scan, if_neg (by decide), if_pos rfl]

theorem scan_passes {l rest : Units} (hl : Chars l) (h : depth ≠ 1 ∨ NoColon rest) :
    scan depth seen .outside (34 :: (l ++ 34 :: rest)) = scan depth seen .outside rest := by
  rw [scan_string hl, closeString_same h]

theorem scan_opens {c : Nat} (hc : c = 123 ∨ c = 91) (rest : Units) :
    scan depth seen .outside (c :: rest) = scan (depth + 1) seen .outside rest := by
  rw [scan, if_neg (by omega), if_pos hc]

theorem scan_closes {c : Nat} (hc : c = 125 ∨ c = 93) (rest : Units) :
    scan depth seen .outside (c :: rest) = scan (depth - 1) seen .outside rest := by
  rw [scan, if_neg (by omega), if_neg (by omega), if_pos hc]

/-- A comma or a colon. -/
theorem scan_mark {c : Nat} (hc : c = 44 ∨ c = 58) (rest : Units) :
    scan depth seen .outside (c :: rest) = scan depth seen .outside rest := by
  rw [scan, if_neg (by omega), if_neg (by omega), if_neg (by omega)]

/-- What the scan does with a production; in an array or an object that is nested it is at depth two. -/
def Passes : Item → Units → Units → Prop
  | .value _, text, rest => ∀ (depth : ℤ) seen, 1 ≤ depth → depth ≠ 1 ∨ NoColon rest →
    scan depth seen .outside text = scan depth seen .outside rest
  | .field _ _, text, rest => ∀ (depth : ℤ) seen, 2 ≤ depth →
    scan depth seen .outside text = scan depth seen .outside rest
  | _, text, rest => ∀ (depth : ℤ) seen, 2 ≤ depth →
    scan depth seen .outside text = scan (depth - 1) seen .outside rest

/-- **Whatever is nested is passed over**, by induction on the derivation. -/
theorem passes {item : Item} {text rest : Units} (h : Reads words item text rest) :
    Passes item text rest := by
  induction h with
  | word h =>
    intro depth seen _ _
    exact scan_quiet (words_quiet h) depth seen _
  | num h =>
    intro depth seen _ _
    exact scan_quiet (number_quiet h) depth seen _
  | str h =>
    intro depth seen _ hname
    exact scan_passes h hname
  | arrNil hsp =>
    intro depth seen _ _
    rw [scan_opens (Or.inr rfl), scan_quiet (space_quiet hsp), scan_closes (Or.inr rfl), add_sub_cancel_right]
  | arr hsp h ih =>
    intro depth seen hdepth _
    rw [scan_opens (Or.inr rfl), scan_quiet (space_quiet hsp), ih (depth + 1) seen (by omega),
      add_sub_cancel_right]
  | objNil hsp =>
    intro depth seen _ _
    rw [scan_opens (Or.inl rfl), scan_quiet (space_quiet hsp), scan_closes (Or.inl rfl), add_sub_cancel_right]
  | obj hsp h ih =>
    intro depth seen hdepth _
    rw [scan_opens (Or.inl rfl), scan_quiet (space_quiet hsp), ih (depth + 1) seen (by omega),
      add_sub_cancel_right]
  | last hsp h ih =>
    intro depth seen hdepth
    rw [ih depth seen (by omega) (Or.inl (by omega)), scan_quiet (space_quiet hsp), scan_closes (Or.inr rfl)]
  | next hsp hsp' h h' ih ih' =>
    intro depth seen hdepth
    rw [ih depth seen (by omega) (Or.inl (by omega)), scan_quiet (space_quiet hsp), scan_mark (Or.inl rfl),
      scan_quiet (space_quiet hsp'), ih' depth seen hdepth]
  | lastField hsp h ih =>
    intro depth seen hdepth
    rw [ih depth seen hdepth, scan_quiet (space_quiet hsp), scan_closes (Or.inl rfl)]
  | nextField hsp hsp' h h' ih ih' =>
    intro depth seen hdepth
    rw [ih depth seen hdepth, scan_quiet (space_quiet hsp), scan_mark (Or.inl rfl),
      scan_quiet (space_quiet hsp'), ih' depth seen hdepth]
  | field hk hsp hsp' h ih =>
    intro depth seen hdepth
    have hnested : depth ≠ 1 := by omega
    rw [scan_passes hk (Or.inl hnested), scan_quiet (space_quiet hsp), scan_mark (Or.inr rfl),
      scan_quiet (space_quiet hsp'), ih depth seen (by omega) (Or.inl hnested)]

/-! ## §4. The fields of the outer object. -/

/-- The literal `1`. -/
def isOne : Tree → Bool
  | .num l => decide (l = [49])
  | _ => false

/-- What the scan checks, field by field. -/
def checkFields : List Units → List (Units × Tree) → Except Fail (List Units)
  | seen, [] => .ok seen
  | seen, (k, v) :: fields =>
    if utf16Value k ∈ seen then .error duplicate
    else if utf16Value k = version ∧ isOne v = false then .error inexact
    else checkFields (utf16Value k :: seen) fields

theorem exactOne_of_head {c : Nat} {tl : Units} (hspace : isJsSpace c = false) (hc : c ≠ 49) :
    exactOne (c :: tl) = false := by
  unfold exactOne
  rw [List.dropWhile_cons_of_neg (by simp [hspace])]
  dsimp only
  rw [decide_eq_false hc, Bool.false_and]

/-- **The expression for `1`** tests the value of the field. -/
theorem exactOne_value {v : Tree} {sp sp' text rest : Units} {d : Nat} (hsp : Space sp) (hsp' : Space sp')
    (hd : d = 44 ∨ d = 125) (h : Reads words (.value v) text (sp ++ d :: rest)) :
    exactOne (sp' ++ text) = isOne v := by
  have hskip : exactOne (sp' ++ text) = exactOne text := by
    unfold exactOne
    rw [dropWhile_space hsp']
  have hbehind : (sp ++ d :: rest).dropWhile isJsSpace = d :: rest := by
    rw [dropWhile_space hsp]
    rcases hd with rfl | rfl
    · rfl
    · rfl
  rw [hskip]
  generalize hbehind' : sp ++ d :: rest = behind at h hbehind
  cases h with
  | word hword =>
    simp only [words, List.mem_cons, List.not_mem_nil, or_false, Prod.mk.injEq] at hword
    rcases hword with ⟨rfl, rfl⟩ | ⟨rfl, rfl⟩ | ⟨rfl, rfl⟩
    · exact exactOne_of_head (by decide) (by decide)
    · exact exactOne_of_head (by decide) (by decide)
    · exact exactOne_of_head (by decide) (by decide)
  | @num l _ hl =>
    have hchars := number_chars hl
    obtain ⟨c, tl, rfl, -⟩ := isNumber_head hl
    have hc := (number_char (hchars c List.mem_cons_self)).1
    rw [List.cons_append]
    by_cases hone : c = 49
    · subst hone
      unfold exactOne
      rw [List.dropWhile_cons_of_neg (by simp [hc])]
      dsimp only
      rw [decide_eq_true rfl, Bool.true_and]
      cases tl with
      | nil =>
        rw [List.nil_append, hbehind]
        exact decide_eq_true hd
      | cons e tl =>
        -- a longer number goes on with a character that ends no field
        obtain ⟨hspace, -, -, -, hbrace, -, hcomma, -⟩ :=
          number_char (hchars e (List.mem_cons_of_mem _ List.mem_cons_self))
        rw [List.cons_append, List.dropWhile_cons_of_neg (by simp [hspace])]
        have hends : ¬(e = 44 ∨ e = 125) := by omega
        have hlonger : ¬(49 :: e :: tl = [49]) := by simp
        exact (decide_eq_false hends).trans (decide_eq_false hlonger).symm
    · rw [exactOne_of_head hc hone]
      have hother : ¬(c :: tl = [49]) := fun heq => hone (List.cons.inj heq).1
      exact (decide_eq_false hother).symm
  | str hl => exact exactOne_of_head (by decide) (by decide)
  | arrNil hsp => exact exactOne_of_head (by decide) (by decide)
  | arr hsp h => exact exactOne_of_head (by decide) (by decide)
  | objNil hsp => exact exactOne_of_head (by decide) (by decide)
  | obj hsp h => exact exactOne_of_head (by decide) (by decide)

/-- One name. -/
theorem closeString_name {k sp after : Units} (hk : Chars k) (hsp : Space sp) :
    closeString 1 seen k (sp ++ 58 :: after) =
      if utf16Value k ∈ seen then .error duplicate
      else if utf16Value k = version ∧ exactOne after = false then .error inexact
      else .ok (utf16Value k :: seen) := by
  have hname : parse words (34 :: (k ++ [34])) = some (.str k) :=
    (parse_eq_some words_plain).mpr ⟨[], _, [], space_nil, space_nil, rfl, .str hk⟩
  unfold closeString
  rw [dropWhile_space hsp]
  show (if (1 : ℤ) = 1 ∧ 58 = 58 then _ else _) = _
  rw [if_pos ⟨rfl, rfl⟩, hname]

/-- One field, with `d` behind it. -/
theorem scan_field {k sp text rest : Units} {v : Tree} {d : Nat} (hsp : Space sp)
    (hd : d = 44 ∨ d = 125) (h : Reads words (.field k v) text (sp ++ d :: rest)) :
    scan 1 seen .outside text =
      if utf16Value k ∈ seen then .error duplicate
      else if utf16Value k = version ∧ isOne v = false then .error inexact
      else scan 1 (utf16Value k :: seen) .outside (d :: rest) := by
  generalize hbehind : sp ++ d :: rest = behind at h
  cases h with
  | @field _ _ sp₁ sp₂ text' _ hk hsp₁ hsp₂ hvalue =>
    rw [← hbehind] at hvalue
    have hcolon : NoColon (sp ++ d :: rest) := by
      rcases hd with rfl | rfl
      · exact noColon_append hsp (by decide) (by decide)
      · exact noColon_append hsp (by decide) (by decide)
    rw [scan_string hk, closeString_name hk hsp₁, exactOne_value hsp hsp₂ hd hvalue]
    by_cases hdup : utf16Value k ∈ seen
    · rw [if_pos hdup, if_pos hdup]
    · rw [if_neg hdup, if_neg hdup]
      by_cases hone : utf16Value k = version ∧ isOne v = false
      · rw [if_pos hone, if_pos hone]
      · rw [if_neg hone, if_neg hone]
        show scan 1 (utf16Value k :: seen) .outside (sp₁ ++ 58 :: (sp₂ ++ text')) = _
        rw [scan_quiet (space_quiet hsp₁), scan_mark (Or.inr rfl), scan_quiet (space_quiet hsp₂),
          passes hvalue 1 _ le_rfl (Or.inr hcolon), scan_quiet (space_quiet hsp)]

/-- **The fields are checked one by one.** -/
theorem scan_members {fields : List (Units × Tree)} {text rest : Units}
    (h : Reads words (.members fields) text rest) :
    scan 1 seen .outside text =
      match checkFields seen fields with
      | .error e => .error e
      | .ok seen => scan 0 seen .outside rest := by
  induction fields generalizing seen text with
  | nil => cases h
  | cons f fields ih =>
    obtain ⟨k, v⟩ := f
    cases h with
    | @lastField _ _ sp _ _ hsp hfield =>
      rw [scan_field hsp (Or.inr rfl) hfield]
      unfold checkFields
      split
      · rfl
      · split
        · rfl
        · rw [scan_closes (Or.inl rfl)]
          rfl
    | @nextField _ _ _ sp sp' _ text' _ hsp hsp' hfield hrest =>
      rw [scan_field hsp (Or.inl rfl) hfield]
      rw [checkFields]
      split
      · rfl
      · split
        · rfl
        · rw [scan_mark (Or.inl rfl), scan_quiet (space_quiet hsp'), ih hrest]

theorem scan_space {sp : Units} (hsp : Space sp) : scan depth seen .outside sp = .ok () := by
  have hquiet := scan_quiet (space_quiet hsp) depth seen []
  rw [List.append_nil] at hquiet
  rw [hquiet]
  rfl

/-- **The scan of an object.** -/
theorem scan_object {fields : List (Units × Tree)} {text : Units} (h : Document words (.obj fields) text) :
    scan 0 [] .outside text = (checkFields [] fields).map fun _ => () := by
  obtain ⟨sp, text', sp', hsp, hsp', rfl, hreads⟩ := h
  rw [scan_quiet (space_quiet hsp)]
  cases hreads with
  | word hword =>
    simp only [words, List.mem_cons, List.not_mem_nil, or_false, Prod.mk.injEq] at hword
    rcases hword with ⟨-, hv⟩ | ⟨-, hv⟩ | ⟨-, hv⟩
    · cases hv
    · cases hv
    · cases hv
  | objNil hsp₁ =>
    rw [scan_opens (Or.inl rfl), scan_quiet (space_quiet hsp₁), scan_closes (Or.inl rfl), scan_space hsp']
    rfl
  | obj hsp₁ hmembers =>
    rw [scan_opens (Or.inl rfl), scan_quiet (space_quiet hsp₁), zero_add, scan_members hmembers]
    cases checkFields [] fields with
    | error e => rfl
    | ok seen => exact scan_space hsp'

end Scan

end My98.Web.Descriptor
