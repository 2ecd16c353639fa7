/-
  My98.Lib.JsonText — JSON as text: a parser, the grammar, and that they agree.

  A text is a list of numbers, one for each character: code points in one language, UTF-16 code
  units in another.  Nothing here depends on which, because JSON gives a meaning to characters
  below 128 only and lets every other one stand inside a string.

  A `Tree` keeps the LITERALS of the text (how a number and a string are spelled) and the fields
  of an object in the order they are written, also those that occur twice.  What a literal is
  worth, and what becomes of a duplicate, is up to the language that reads the tree.

    • `parse`       — recursive descent, for a table of bare words;
    • `Reads`       — the grammar, one constructor a production;
    • `parse_sound` — what the parser returns, the grammar derives;
    • `spelled`     — the characters a string literal stands for, with those written as `\u` marked,
      because that is where two languages differ: `utf16Value`, `codePoints`.
-/
import Mathlib.Algebra.Order.Ring.Nat
import Mathlib.Data.List.TakeWhile
import Mathlib.Tactic.Common
import My98.Lib.Json

namespace My98.Lib.JsonText

/-- A text, character by character. -/
abbrev Units := List Nat

/-- Membership among texts, decided once for every table of names. -/
instance decidableMemUnits (x : Units) (xs : List Units) : Decidable (x ∈ xs) := inferInstance

/-- The characters of a string literal of the model. -/
def units (s : String) : Units := s.toList.map Char.toNat

inductive Tree where
  | null
  | bool (b : Bool)
  | num (lit : Units)
  | str (lit : Units)
  | arr (items : List Tree)
  | obj (fields : List (Units × Tree))

/-- The bare words of a language, with what they stand for. -/
abbrev Words := List (Units × Tree)

/-- The words of JSON. -/
def words : Words := [(units "null", .null), (units "true", .bool true), (units "false", .bool false)]

/-! ## §1. The parser. -/

def isSpace (c : Nat) : Bool := c = 32 || c = 9 || c = 10 || c = 13

def isNumeral (c : Nat) : Bool := 48 ≤ c && c ≤ 57

def isHexUnit (c : Nat) : Bool := isNumeral c || (97 ≤ c && c ≤ 102) || (65 ≤ c && c ≤ 70)

def skipSpace (text : Units) : Units := text.dropWhile isSpace

/-- A sign, if there is one. -/
def signPart (signs : Units) : Units → Units × Units
  | [] => ([], [])
  | c :: rest => if c ∈ signs then ([c], rest) else ([], c :: rest)

def intPart : Units → Option (Units × Units)
  | [] => none
  | c :: rest =>
    if c = 48 then some ([48], rest)
    else if isNumeral c then some (c :: rest.takeWhile isNumeral, rest.dropWhile isNumeral)
    else none

/-- A point with the digits after it, if there are any. -/
def fracPart : Units → Units × Units
  | [] => ([], [])
  | c :: rest =>
    if c = 46 ∧ rest.takeWhile isNumeral ≠ [] then
      (46 :: rest.takeWhile isNumeral, rest.dropWhile isNumeral)
    else ([], c :: rest)

/-- An exponent, if there is one. -/
def expPart : Units → Units × Units
  | [] => ([], [])
  | c :: rest =>
    let (sign, after) := signPart [43, 45] rest
    if (c = 101 ∨ c = 69) ∧ after.takeWhile isNumeral ≠ [] then
      (c :: (sign ++ after.takeWhile isNumeral), after.dropWhile isNumeral)
    else ([], c :: rest)

/-- The longest number in front of a text. -/
def number (text : Units) : Option (Units × Units) :=
  let (sign, text) := signPart [45] text
  match intPart text with
  | none => none
  | some (int, text) =>
    let (frac, text) := fracPart text
    let (exp, text) := expPart text
    some (sign ++ int ++ frac ++ exp, text)

/-- The characters that may follow a backslash, `u` apart. -/
def escapes : Units := units "\"\\/bfnrt"

/-- Whether `e`, with `rest` behind it, may follow a backslash. -/
def escaped (e : Nat) (rest : Units) : Bool :=
  if e = 117 then decide (4 ≤ rest.length) && (rest.take 4).all isHexUnit else decide (e ∈ escapes)

/-- A string up to the quote that ends it.  The digits of `\u` are read as any other characters,
    once they are known to be there. -/
def string : Units → Option (Units × Units)
  | [] => none
  | [c] => if c = 34 then some ([], []) else none
  | c :: e :: rest =>
    if c = 34 then some ([], e :: rest)
    else if c = 92 then
      if escaped e rest then (string rest).map fun r => (92 :: e :: r.1, r.2) else none
    else if 32 ≤ c then (string (e :: rest)).map fun r => (c :: r.1, r.2)
    else none

/-- The word in front of a text. -/
def word (ws : Words) (text : Units) : Option (Units × Tree) := ws.find? fun e => e.1.isPrefixOf text

/-- A word or a number. -/
def scalar (ws : Words) (text : Units) : Option (Tree × Units) :=
  match word ws text with
  | some (l, v) => some (v, text.drop l.length)
  | none => (number text).map fun r => (.num r.1, r.2)

/-- What follows `c`, when `c` is the next character that is no white space. -/
def accept (c : Nat) (text : Units) : Option Units :=
  match skipSpace text with
  | [] => none
  | d :: rest => if d = c then some rest else none

mutual

def value (ws : Words) : Nat → Units → Option (Tree × Units)
  | 0, _ => none
  | _ + 1, [] => none
  | n + 1, c :: rest =>
    if c = 34 then (string rest).map fun r => (.str r.1, r.2)
    else if c = 91 then
      match accept 93 rest with
      | some rest => some (.arr [], rest)
      | none => (elements ws n (skipSpace rest)).map fun r => (.arr r.1, r.2)
    else if c = 123 then
      match accept 125 rest with
      | some rest => some (.obj [], rest)
      | none => (members ws n (skipSpace rest)).map fun r => (.obj r.1, r.2)
    else scalar ws (c :: rest)

def elements (ws : Words) : Nat → Units → Option (List Tree × Units)
  | 0, _ => none
  | n + 1, text =>
    match value ws n text with
    | none => none
    | some (v, rest) =>
      match accept 93 rest with
      | some rest => some ([v], rest)
      | none =>
        match accept 44 rest with
        | none => none
        | some rest => (elements ws n (skipSpace rest)).map fun r => (v :: r.1, r.2)

def members (ws : Words) : Nat → Units → Option (List (Units × Tree) × Units)
  | 0, _ => none
  | n + 1, text =>
    match field ws n text with
    | none => none
    | some (f, rest) =>
      match accept 125 rest with
      | some rest => some ([f], rest)
      | none =>
        match accept 44 rest with
        | none => none
        | some rest => (members ws n (skipSpace rest)).map fun r => (f :: r.1, r.2)

def field (ws : Words) : Nat → Units → Option ((Units × Tree) × Units)
  | 0, _ => none
  | _ + 1, [] => none
  | n + 1, c :: rest =>
    if c = 34 then
      match string rest with
      | none => none
      | some (k, rest) =>
        match accept 58 rest with
        | none => none
        | some rest => (value ws n (skipSpace rest)).map fun r => ((k, r.1), r.2)
    else none

end

/-- The value of a text, with nothing but white space around it. -/
def parse (ws : Words) (text : Units) : Option Tree :=
  match value ws (2 * text.length) (skipSpace text) with
  | none => none
  | some (v, rest) => if skipSpace rest = [] then some v else none

/-! ## §2. The grammar. -/

/-- White space. -/
def Space (text : Units) : Prop := ∀ c ∈ text, isSpace c = true

/-- Digits, at least one. -/
structure Numerals (ds : Units) : Prop where
  ne : ds ≠ []
  all : ∀ c ∈ ds, isNumeral c = true

/-- Zero, or digits that do not start with it. -/
def IsInt (i : Units) : Prop := i = [48] ∨ Numerals i ∧ i.head? ≠ some 48

def IsFrac (f : Units) : Prop := f = [] ∨ ∃ ds, f = 46 :: ds ∧ Numerals ds

def IsExp (e : Units) : Prop :=
  e = [] ∨ ∃ c s ds, e = c :: (s ++ ds) ∧ (c = 101 ∨ c = 69) ∧ (s = [] ∨ s = [43] ∨ s = [45]) ∧
    Numerals ds

def IsNumber (l : Units) : Prop :=
  ∃ s i f e, l = s ++ i ++ f ++ e ∧ (s = [] ∨ s = [45]) ∧ IsInt i ∧ IsFrac f ∧ IsExp e

/-- What may stand between two quotes. -/
inductive Chars : Units → Prop
  | nil : Chars []
  | plain {c : Nat} {rest : Units} (hc : 32 ≤ c ∧ c ≠ 34 ∧ c ≠ 92) (h : Chars rest) : Chars (c :: rest)
  | escape {e : Nat} {rest : Units} (he : escaped e rest = true) (h : Chars rest) :
      Chars (92 :: e :: rest)

/-- What a production derives. -/
inductive Item where
  | value (v : Tree)
  | elements (vs : List Tree)
  | members (fs : List (Units × Tree))
  | field (k : Units) (v : Tree)

/-- **The grammar.**  `Reads ws item text rest`: the text is one of `item`, with `rest` behind
    it. -/
inductive Reads (ws : Words) : Item → Units → Units → Prop
  | word {l rest : Units} {v : Tree} (h : (l, v) ∈ ws) : Reads ws (.value v) (l ++ rest) rest
  | num {l rest : Units} (h : IsNumber l) : Reads ws (.value (.num l)) (l ++ rest) rest
  | str {l rest : Units} (h : Chars l) : Reads ws (.value (.str l)) (34 :: (l ++ 34 :: rest)) rest
  | arrNil {sp rest : Units} (hsp : Space sp) :
      Reads ws (.value (.arr [])) (91 :: (sp ++ 93 :: rest)) rest
  | arr {vs : List Tree} {sp text rest : Units} (hsp : Space sp)
      (h : Reads ws (.elements vs) text rest) : Reads ws (.value (.arr vs)) (91 :: (sp ++ text)) rest
  | objNil {sp rest : Units} (hsp : Space sp) :
      Reads ws (.value (.obj [])) (123 :: (sp ++ 125 :: rest)) rest
  | obj {fs : List (Units × Tree)} {sp text rest : Units} (hsp : Space sp)
      (h : Reads ws (.members fs) text rest) : Reads ws (.value (.obj fs)) (123 :: (sp ++ text)) rest
  | last {v : Tree} {sp text rest : Units} (hsp : Space sp)
      (h : Reads ws (.value v) text (sp ++ 93 :: rest)) : Reads ws (.elements [v]) text rest
  | next {v : Tree} {vs : List Tree} {sp sp' text text' rest : Units} (hsp : Space sp)
      (hsp' : Space sp') (h : Reads ws (.value v) text (sp ++ 44 :: (sp' ++ text')))
      (h' : Reads ws (.elements vs) text' rest) : Reads ws (.elements (v :: vs)) text rest
  | lastField {k : Units} {v : Tree} {sp text rest : Units} (hsp : Space sp)
      (h : Reads ws (.field k v) text (sp ++ 125 :: rest)) : Reads ws (.members [(k, v)]) text rest
  | nextField {k : Units} {v : Tree} {fs : List (Units × Tree)} {sp sp' text text' rest : Units}
      (hsp : Space sp) (hsp' : Space sp')
      (h : Reads ws (.field k v) text (sp ++ 44 :: (sp' ++ text')))
      (h' : Reads ws (.members fs) text' rest) : Reads ws (.members ((k, v) :: fs)) text rest
  | field {k : Units} {v : Tree} {sp sp' text rest : Units} (hk : Chars k) (hsp : Space sp)
      (hsp' : Space sp') (h : Reads ws (.value v) text rest) :
      Reads ws (.field k v) (34 :: (k ++ 34 :: (sp ++ 58 :: (sp' ++ text)))) rest

/-- A text of `v`: white space may stand around it. -/
def Document (ws : Words) (v : Tree) (text : Units) : Prop :=
  ∃ sp text' sp', Space sp ∧ Space sp' ∧ text = sp ++ text' ∧ Reads ws (.value v) text' sp'

/-! ## §3. What is parsed is in the grammar. -/

section Sound

/-- What is skipped is white space. -/
theorem skipSpace_spec (text : Units) : ∃ sp, Space sp ∧ text = sp ++ skipSpace text := by
  refine ⟨text.takeWhile isSpace, ?_, (List.takeWhile_append_dropWhile).symm⟩
  intro c hc
  exact List.mem_takeWhile_imp hc

/-- An accepted character stands behind white space. -/
theorem accept_sound {c : Nat} {text rest : Units} (h : accept c text = some rest) :
    ∃ sp, Space sp ∧ text = sp ++ c :: rest := by
  obtain ⟨sp, hsp, htext⟩ := skipSpace_spec text
  unfold accept at h
  split at h
  · cases h
  next d rest' hskip =>
    split at h
    next hd =>
      obtain rfl := Option.some.inj h
      rw [hskip, hd] at htext
      exact ⟨sp, hsp, htext⟩
    · cases h

/-- The sign is one of those that are allowed, or is not there. -/
theorem signPart_sound (signs text : Units) :
    (signPart signs text).1 ++ (signPart signs text).2 = text ∧
      ((signPart signs text).1 = [] ∨ ∃ c ∈ signs, (signPart signs text).1 = [c]) := by
  cases text with
  | nil => exact ⟨rfl, .inl rfl⟩
  | cons c rest =>
    rw [signPart]
    split
    next hc => exact ⟨rfl, .inr ⟨c, hc, rfl⟩⟩
    · exact ⟨rfl, .inl rfl⟩

/-- What is taken of a text while it is made of numerals is made of numerals. -/
theorem numerals_takeWhile {text : Units} (h : text.takeWhile isNumeral ≠ []) :
    Numerals (text.takeWhile isNumeral) := ⟨h, fun _ hc => List.mem_takeWhile_imp hc⟩

/-- What is read for the integer part is one. -/
theorem intPart_sound {text i rest : Units} (h : intPart text = some (i, rest)) :
    text = i ++ rest ∧ IsInt i := by
  cases text with
  | nil => cases h
  | cons c text =>
    rw [intPart] at h
    split at h
    next hc =>
      obtain ⟨rfl, rfl⟩ := Prod.mk.inj (Option.some.inj h)
      exact ⟨by rw [hc]; rfl, .inl rfl⟩
    next hc =>
      split at h
      next hd =>
        obtain ⟨rfl, rfl⟩ := Prod.mk.inj (Option.some.inj h)
        refine ⟨by rw [List.cons_append, List.takeWhile_append_dropWhile], .inr ⟨⟨by simp, ?_⟩, ?_⟩⟩
        · intro d hd'
          rcases List.mem_cons.mp hd' with rfl | hd'
          · exact hd
          · exact List.mem_takeWhile_imp hd'
        · simpa using hc
      · cases h

/-- What is read for the fraction is one, or nothing. -/
theorem fracPart_sound (text : Units) :
    (fracPart text).1 ++ (fracPart text).2 = text ∧ IsFrac (fracPart text).1 := by
  cases text with
  | nil => exact ⟨rfl, .inl rfl⟩
  | cons c rest =>
    rw [fracPart]
    split
    next h =>
      refine ⟨?_, .inr ⟨_, rfl, numerals_takeWhile h.2⟩⟩
      rw [List.cons_append, List.takeWhile_append_dropWhile, h.1]
    · exact ⟨rfl, .inl rfl⟩

/-- What is read for the exponent is one, or nothing. -/
theorem expPart_sound (text : Units) :
    (expPart text).1 ++ (expPart text).2 = text ∧ IsExp (expPart text).1 := by
  cases text with
  | nil => exact ⟨rfl, .inl rfl⟩
  | cons c rest =>
    obtain ⟨hsplit, hsign⟩ := signPart_sound [43, 45] rest
    rw [expPart]
    dsimp only
    split
    next h =>
      refine ⟨?_, .inr ⟨c, _, _, rfl, h.1, ?_, numerals_takeWhile h.2⟩⟩
      · rw [List.cons_append, List.append_assoc, List.takeWhile_append_dropWhile, hsplit]
      · rcases hsign with hnone | ⟨d, hd, hsome⟩
        · exact .inl hnone
        · rw [hsome]
          simpa using hd
    · exact ⟨rfl, .inl rfl⟩

/-- **A number that is read is a number of the grammar.** -/
theorem number_sound {text l rest : Units} (h : number text = some (l, rest)) :
    text = l ++ rest ∧ IsNumber l := by
  obtain ⟨hsign, hs⟩ := signPart_sound [45] text
  unfold number at h
  dsimp only at h
  split at h
  · cases h
  next i text' hint =>
    obtain ⟨hsplit, hi⟩ := intPart_sound hint
    obtain ⟨hfrac, hf⟩ := fracPart_sound text'
    obtain ⟨hexp, he⟩ := expPart_sound (fracPart text').2
    obtain ⟨rfl, rfl⟩ := Prod.mk.inj (Option.some.inj h)
    refine ⟨?_, _, _, _, _, rfl, ?_, hi, hf, he⟩
    · rw [List.append_assoc, hexp, List.append_assoc, hfrac, List.append_assoc, ← hsplit, hsign]
    · rcases hs with hnone | ⟨d, hd, hsome⟩
      · exact .inl hnone
      · rw [hsome]
        simpa using hd

/-- A quote is no hexadecimal digit: the digits of an escape stand inside the string. -/
theorem escaped_append {e : Nat} {l rest : Units} : escaped e (l ++ 34 :: rest) = escaped e l := by
  unfold escaped
  split
  next =>
    by_cases hl : 4 ≤ l.length
    · have hle : 4 ≤ (l ++ 34 :: rest).length := by
        rw [List.length_append]
        omega
      rw [List.take_append_of_le_length hl, decide_eq_true hl, decide_eq_true hle]
    · rw [decide_eq_false hl, Bool.false_and, Bool.and_eq_false_iff]
      right
      rw [List.all_eq_false]
      refine ⟨34, ?_, by decide⟩
      rw [List.take_append, List.mem_append]
      right
      have hpos : 4 - l.length = (3 - l.length) + 1 := by omega
      rw [hpos, List.take_succ_cons]
      exact List.mem_cons_self
  next => rfl

/-- **A string that is read is a string of the grammar**, up to the quote that ends it. -/
theorem string_sound {text l rest : Units} (h : string text = some (l, rest)) :
    text = l ++ 34 :: rest ∧ Chars l := by
  fun_induction string text generalizing l rest with
  | case1 => cases h
  | case2 =>
    obtain ⟨rfl, rfl⟩ := Prod.mk.inj (Option.some.inj h)
    exact ⟨rfl, .nil⟩
  | case3 => cases h
  | case4 =>
    obtain ⟨rfl, rfl⟩ := Prod.mk.inj (Option.some.inj h)
    exact ⟨rfl, .nil⟩
  | case5 e rest' he hne ih =>
    obtain ⟨⟨l', r⟩, hl, heq⟩ := Option.map_eq_some_iff.mp h
    obtain ⟨rfl, rfl⟩ := Prod.mk.inj heq
    obtain ⟨htext, hchars⟩ := ih hl
    rw [htext, escaped_append] at he
    rw [htext]
    exact ⟨rfl, .escape he hchars⟩
  | case6 => cases h
  | case7 c e rest' hne hne' hc ih =>
    obtain ⟨⟨l', r⟩, hl, heq⟩ := Option.map_eq_some_iff.mp h
    obtain ⟨rfl, rfl⟩ := Prod.mk.inj heq
    obtain ⟨htext, hchars⟩ := ih hl
    rw [htext]
    exact ⟨rfl, .plain ⟨hc, hne, hne'⟩ hchars⟩
  | case8 => cases h

/-- A scalar is a bare word or a number. -/
theorem scalar_sound {ws : Words} {text rest : Units} {v : Tree}
    (h : scalar ws text = some (v, rest)) : Reads ws (.value v) text rest := by
  unfold scalar at h
  split at h
  next l v' hword =>
    obtain ⟨rfl, rfl⟩ := Prod.mk.inj (Option.some.inj h)
    have hmem : (l, v') ∈ ws := List.mem_of_find?_eq_some hword
    have hprefix : l <+: text := by
      have := List.find?_some hword
      exact List.isPrefixOf_iff_prefix.mp this
    obtain ⟨rest, rfl⟩ := hprefix
    rw [List.drop_left]
    exact .word hmem
  next =>
    obtain ⟨⟨l, r⟩, hnumber, heq⟩ := Option.map_eq_some_iff.mp h
    obtain ⟨rfl, rfl⟩ := Prod.mk.inj heq
    obtain ⟨rfl, hl⟩ := number_sound hnumber
    exact .num hl

variable {ws : Words} {n : Nat}

/-- The four parts of the parser, by the fuel they are given. -/
structure Sound (ws : Words) (n : Nat) : Prop where
  value : ∀ text v rest, value ws n text = some (v, rest) → Reads ws (.value v) text rest
  elements : ∀ text vs rest, elements ws n text = some (vs, rest) → Reads ws (.elements vs) text rest
  members : ∀ text fs rest, members ws n text = some (fs, rest) → Reads ws (.members fs) text rest
  field : ∀ text f rest, field ws n text = some (f, rest) → Reads ws (.field f.1 f.2) text rest

/-- A value, if what is read with less fuel is in the grammar. -/
theorem value_sound (ih : Sound ws n) {text rest : Units} {v : Tree}
    (h : value ws (n + 1) text = some (v, rest)) : Reads ws (.value v) text rest := by
  cases text with
  | nil =>
    rw [value] at h
    cases h
  | cons c text =>
    rw [value] at h
    split at h
    next hc =>
      obtain ⟨⟨l, r⟩, hstring, heq⟩ := Option.map_eq_some_iff.mp h
      obtain ⟨rfl, rfl⟩ := Prod.mk.inj heq
      obtain ⟨rfl, hl⟩ := string_sound hstring
      rw [hc]
      exact .str hl
    next =>
      obtain ⟨sp, hsp, hskip⟩ := skipSpace_spec text
      split at h
      next hc =>
        rw [hc]
        split at h
        next rest' haccept =>
          obtain ⟨rfl, rfl⟩ := Prod.mk.inj (Option.some.inj h)
          obtain ⟨sp', hsp', rfl⟩ := accept_sound haccept
          exact .arrNil hsp'
        next =>
          obtain ⟨⟨vs, r⟩, helements, heq⟩ := Option.map_eq_some_iff.mp h
          obtain ⟨rfl, rfl⟩ := Prod.mk.inj heq
          rw [hskip]
          exact .arr hsp (ih.elements _ _ _ helements)
      next =>
        split at h
        next hc =>
          rw [hc]
          split at h
          next rest' haccept =>
            obtain ⟨rfl, rfl⟩ := Prod.mk.inj (Option.some.inj h)
            obtain ⟨sp', hsp', rfl⟩ := accept_sound haccept
            exact .objNil hsp'
          next =>
            obtain ⟨⟨fs, r⟩, hmembers, heq⟩ := Option.map_eq_some_iff.mp h
            obtain ⟨rfl, rfl⟩ := Prod.mk.inj heq
            rw [hskip]
            exact .obj hsp (ih.members _ _ _ hmembers)
        next => exact scalar_sound h

/-- The elements of an array, if what is read with less fuel is in the grammar. -/
theorem elements_sound (ih : Sound ws n) {text rest : Units} {vs : List Tree}
    (h : elements ws (n + 1) text = some (vs, rest)) : Reads ws (.elements vs) text rest := by
  rw [elements] at h
  split at h
  · cases h
  next v rest₁ hvalue =>
    have hv := ih.value _ _ _ hvalue
    split at h
    next rest₂ haccept =>
      obtain ⟨rfl, rfl⟩ := Prod.mk.inj (Option.some.inj h)
      obtain ⟨sp, hsp, rfl⟩ := accept_sound haccept
      exact .last hsp hv
    next =>
      split at h
      · cases h
      next rest₂ haccept =>
        obtain ⟨⟨vs', r⟩, helements, heq⟩ := Option.map_eq_some_iff.mp h
        obtain ⟨rfl, rfl⟩ := Prod.mk.inj heq
        obtain ⟨sp, hsp, rfl⟩ := accept_sound haccept
        obtain ⟨sp', hsp', hskip⟩ := skipSpace_spec rest₂
        rw [hskip] at hv
        exact .next hsp hsp' hv (ih.elements _ _ _ helements)

/-- The fields of an object, if what is read with less fuel is in the grammar. -/
theorem members_sound (ih : Sound ws n) {text rest : Units} {fs : List (Units × Tree)}
    (h : members ws (n + 1) text = some (fs, rest)) : Reads ws (.members fs) text rest := by
  rw [members] at h
  split at h
  · cases h
  next f rest₁ hfield =>
    have hf := ih.field _ _ _ hfield
    split at h
    next rest₂ haccept =>
      obtain ⟨rfl, rfl⟩ := Prod.mk.inj (Option.some.inj h)
      obtain ⟨sp, hsp, rfl⟩ := accept_sound haccept
      exact .lastField hsp hf
    next =>
      split at h
      · cases h
      next rest₂ haccept =>
        obtain ⟨⟨fs', r⟩, hmembers, heq⟩ := Option.map_eq_some_iff.mp h
        obtain ⟨rfl, rfl⟩ := Prod.mk.inj heq
        obtain ⟨sp, hsp, rfl⟩ := accept_sound haccept
        obtain ⟨sp', hsp', hskip⟩ := skipSpace_spec rest₂
        rw [hskip] at hf
        exact .nextField hsp hsp' hf (ih.members _ _ _ hmembers)

/-- A field, if what is read with less fuel is in the grammar. -/
theorem field_sound (ih : Sound ws n) {text rest : Units} {f : Units × Tree}
    (h : field ws (n + 1) text = some (f, rest)) : Reads ws (.field f.1 f.2) text rest := by
  cases text with
  | nil =>
    rw [field] at h
    cases h
  | cons c text =>
    rw [field] at h
    split at h
    next hc =>
      split at h
      · cases h
      next k rest₁ hstring =>
        obtain ⟨rfl, hk⟩ := string_sound hstring
        split at h
        · cases h
        next rest₂ haccept =>
          obtain ⟨⟨v, r⟩, hvalue, heq⟩ := Option.map_eq_some_iff.mp h
          obtain ⟨rfl, rfl⟩ := Prod.mk.inj heq
          obtain ⟨sp, hsp, rfl⟩ := accept_sound haccept
          obtain ⟨sp', hsp', hskip⟩ := skipSpace_spec rest₂
          rw [hc, hskip]
          exact .field hk hsp hsp' (ih.value _ _ _ hvalue)
    · cases h

/-- **Soundness**, by induction on the fuel. -/
theorem sound (ws : Words) (n : Nat) : Sound ws n := by
  induction n with
  | zero =>
    constructor
    · intro text v rest h
      rw [value] at h
      cases h
    · intro text vs rest h
      rw [elements] at h
      cases h
    · intro text fs rest h
      rw [members] at h
      cases h
    · intro text f rest h
      rw [field] at h
      cases h
  | succ n ih =>
    exact ⟨fun _ _ _ => value_sound ih, fun _ _ _ => elements_sound ih,
      fun _ _ _ => members_sound ih, fun _ _ _ => field_sound ih⟩

/-- **What is parsed is in the grammar.** -/
theorem parse_sound {text : Units} {v : Tree} (h : parse ws text = some v) : Document ws v text := by
  obtain ⟨sp, hsp, hskip⟩ := skipSpace_spec text
  unfold parse at h
  split at h
  · cases h
  next v' rest hvalue =>
    split at h
    next hend =>
      obtain rfl := Option.some.inj h
      obtain ⟨sp', hsp', hrest⟩ := skipSpace_spec rest
      rw [hend, List.append_nil] at hrest
      have hreads := (sound ws _).value _ _ _ hvalue
      exact ⟨sp, skipSpace text, rest, hsp, hrest ▸ hsp', hskip, hreads⟩
    · cases h

end Sound

/-! ## §4. What a string spells. -/

/-- What `e` stands for behind a backslash. -/
def escapeValue (e : Nat) : Nat :=
  if e = 98 then 8 else if e = 102 then 12 else if e = 110 then 10 else if e = 114 then 13
  else if e = 116 then 9 else e

def hexUnit (c : Nat) : Nat := if c ≤ 57 then c - 48 else if c ≤ 70 then c - 55 else c - 87

/-- The number four hexadecimal digits spell. -/
def hex4 (ds : Units) : Nat := ds.foldl (fun n c => 16 * n + hexUnit c) 0

/-- The characters of a literal, after `skip` that are part of an escape: whether it is written
    as `\u`, and which it is. -/
def spelled : Nat → Units → List (Bool × Nat)
  | _, [] => []
  | skip + 1, _ :: rest => spelled skip rest
  | 0, c :: rest =>
    if c = 92 then
      match rest with
      | [] => []
      | e :: tl =>
        if e = 117 then (true, hex4 (tl.take 4)) :: spelled 5 rest
        else (false, escapeValue e) :: spelled 1 rest
    else (false, c) :: spelled 0 rest

/-- A string as a list of UTF-16 code units: every escape is one. -/
def utf16Value (l : Units) : Units := (spelled 0 l).map (·.2)

def isHigh (c : Nat) : Bool := 0xD800 ≤ c && c ≤ 0xDBFF

def isLow (c : Nat) : Bool := 0xDC00 ≤ c && c ≤ 0xDFFF

/-- The code point of a surrogate pair. -/
def pairValue (high low : Nat) : Nat := 0x10000 + (high - 0xD800) * 0x400 + (low - 0xDC00)

/-- Two escapes that are a surrogate pair are one character. -/
def joined : List (Bool × Nat) → Units
  | [] => []
  | [p] => [p.2]
  | p :: q :: rest =>
    if p.1 && q.1 && isHigh p.2 && isLow q.2 then pairValue p.2 q.2 :: joined rest
    else p.2 :: joined (q :: rest)

/-- A string as a list of code points. -/
def codePoints (l : Units) : Units := joined (spelled 0 l)

/-- Characters of one byte, none of them zero. -/
def Ascii (text : Units) : Prop := ∀ c ∈ text, 0 < c ∧ c < 128

section Spelled

/-- A character that is no backslash stands for itself. -/
theorem spelled_plain {c : Nat} (hc : c ≠ 92) (rest : Units) :
    spelled 0 (c :: rest) = (false, c) :: spelled 0 rest := by
  rw [spelled.eq_def]
  dsimp only
  rw [if_neg hc]

/-- A hexadecimal digit is ASCII, and no backslash. -/
theorem isHexUnit_range {c : Nat} (h : isHexUnit c = true) : 48 ≤ c ∧ c ≤ 102 ∧ c ≠ 92 := by
  simp only [isHexUnit, isNumeral, Bool.or_eq_true, Bool.and_eq_true, decide_eq_true_eq] at h
  omega

/-- The four digits of `\u` read as characters of their own. -/
theorem spelled_digits {rest : Units} (he : escaped 117 rest = true) :
    ∃ a b c d tl, rest = a :: b :: c :: d :: tl ∧ (∀ x ∈ [a, b, c, d], isHexUnit x = true) ∧
      spelled 0 rest = (false, a) :: (false, b) :: (false, c) :: (false, d) :: spelled 0 tl := by
  unfold escaped at he
  rw [if_pos rfl, Bool.and_eq_true, decide_eq_true_eq] at he
  obtain ⟨hlen, hhex⟩ := he
  rcases rest with _ | ⟨a, _ | ⟨b, _ | ⟨c, _ | ⟨d, tl⟩⟩⟩⟩
  · exact absurd hlen (by simp)
  · exact absurd hlen (by simp)
  · exact absurd hlen (by simp)
  · exact absurd hlen (by simp)
  · have hall : ∀ x ∈ [a, b, c, d], isHexUnit x = true := List.all_eq_true.mp hhex
    have hne : ∀ x ∈ [a, b, c, d], x ≠ 92 := fun x hx => (isHexUnit_range (hall x hx)).2.2
    refine ⟨a, b, c, d, tl, rfl, hall, ?_⟩
    rw [spelled_plain (hne a (by simp)), spelled_plain (hne b (by simp)),
      spelled_plain (hne c (by simp)), spelled_plain (hne d (by simp))]

/-- A literal that spells characters of one byte is written in such characters. -/
theorem Chars.ascii {l : Units} (h : Chars l) (hvalue : ∀ c ∈ utf16Value l, c < 128) : Ascii l := by
  induction h with
  | nil =>
    intro c hc
    cases hc
  | @plain c rest hc h ih =>
    unfold utf16Value at hvalue ih
    rw [spelled_plain hc.2.2] at hvalue
    have hrest := ih fun d hd => hvalue d (List.mem_cons_of_mem _ hd)
    intro d hd
    rcases List.mem_cons.mp hd with rfl | hd
    · exact ⟨by omega, hvalue d List.mem_cons_self⟩
    · exact hrest d hd
  | @escape e rest he h ih =>
    unfold utf16Value at hvalue ih
    have hascii : (0 < e ∧ e < 128) ∧ Ascii rest := by
      by_cases hu : e = 117
      · subst hu
        obtain ⟨a, b, c, d, tl, rfl, hall, hspelled⟩ := spelled_digits he
        refine ⟨by decide, ih ?_⟩
        rw [hspelled]
        intro x hx
        simp only [List.map_cons] at hx
        have hdigit : ∀ y ∈ [a, b, c, d], y < 128 := by
          intro y hy
          have := isHexUnit_range (hall y hy)
          omega
        have htail : ∀ y ∈ (spelled 0 tl).map (·.2), y < 128 := by
          intro y hy
          exact hvalue y (List.mem_cons_of_mem _ hy)
        rcases List.mem_append.mp (show x ∈ [a, b, c, d] ++ (spelled 0 tl).map (·.2) from hx) with hx | hx
        · exact hdigit x hx
        · exact htail x hx
      · have hskip : spelled 0 (92 :: e :: rest) = (false, escapeValue e) :: spelled 0 rest := by
          rw [spelled, if_pos rfl, if_neg hu, spelled]
        rw [hskip] at hvalue
        refine ⟨?_, ih fun d hd => hvalue d (List.mem_cons_of_mem _ hd)⟩
        unfold escaped at he
        rw [if_neg hu, decide_eq_true_eq] at he
        have hall : ∀ x ∈ escapes, 0 < x ∧ x < 128 := by decide
        exact hall e he
    intro d hd
    rcases List.mem_cons.mp hd with rfl | hd
    · decide
    · rcases List.mem_cons.mp hd with rfl | hd
      · exact hascii.1
      · exact hascii.2 d hd

/-- Surrogates apart, the two readings of a literal are one. -/
theorem joined_eq_iff {ps : List (Bool × Nat)} {text : Units} (h : ∀ c ∈ text, c < 0xD800) :
    joined ps = text ↔ ps.map (·.2) = text := by
  fun_induction joined ps generalizing text with
  | case1 => rfl
  | case2 p => rfl
  | case3 p q rest hpair ih =>
    simp only [Bool.and_eq_true, isHigh, decide_eq_true_eq] at hpair
    constructor
    · intro heq
      have := h (pairValue p.2 q.2) (heq ▸ List.mem_cons_self)
      unfold pairValue at this
      omega
    · intro heq
      have := h p.2 (heq ▸ List.mem_cons_self)
      omega
  | case4 p q rest hpair ih =>
    cases text with
    | nil => exact iff_of_false (List.cons_ne_nil _ _) (List.cons_ne_nil _ _)
    | cons c text =>
      have htail := ih fun d hd => h d (List.mem_cons_of_mem _ hd)
      show p.2 :: joined (q :: rest) = _ ↔ p.2 :: (q :: rest).map (·.2) = _
      rw [List.cons.injEq, htail, List.cons.injEq]

/-- Below the surrogates the two languages read the same text. -/
theorem codePoints_eq_iff {l text : Units} (h : ∀ c ∈ text, c < 0xD800) :
    codePoints l = text ↔ utf16Value l = text := joined_eq_iff h

/-- Letters that need no escape. -/
def Letters (l : Units) : Prop := ∀ c ∈ l, 32 ≤ c ∧ c ≠ 34 ∧ c ≠ 92

/-- Letters need no escape in a string. -/
theorem Letters.chars {l : Units} (h : Letters l) : Chars l := by
  induction l with
  | nil => exact .nil
  | cons c l ih => exact .plain (h c List.mem_cons_self) (ih fun d hd => h d (List.mem_cons_of_mem _ hd))

/-- Letters stand for themselves. -/
theorem Letters.utf16Value {l : Units} (h : Letters l) : utf16Value l = l := by
  induction l with
  | nil => rfl
  | cons c l ih =>
    have hl := ih fun d hd => h d (List.mem_cons_of_mem _ hd)
    unfold JsonText.utf16Value at hl ⊢
    rw [spelled_plain (h c List.mem_cons_self).2.2, List.map_cons, hl]

end Spelled

end My98.Lib.JsonText
