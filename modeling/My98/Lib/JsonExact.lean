/-
  My98.Lib.JsonExact — the JSON parser is complete, and reads what is printed.

  `Reads` lets a production stop wherever it likes; the parser takes the longest number and all
  the white space there is.  They agree because of what may stand BEHIND a value: `Follow`.

    • `complete`      — by induction on the derivation, two units of fuel a character;
    • `parse_eq_some` — **the parser returns `v` exactly on the texts of `v`**;
    • `print`         — the text without white space, and `parse_print`.
-/
import Mathlib.Algebra.Order.Ring.Nat
import Mathlib.Tactic.Common
import My98.Lib.JsonText

namespace My98.Lib.JsonText

/-! ## §1. What is in the grammar is parsed. -/

section Complete

/-- White space is skipped up to the first character that is none. -/
theorem skipSpace_append {sp text : Units} {c : Nat} (hsp : Space sp) (hc : isSpace c = false) :
    skipSpace (sp ++ c :: text) = c :: text := by
  unfold skipSpace
  rw [List.dropWhile_append_of_pos hsp, List.dropWhile_cons_of_neg (by simp [hc])]

/-- The first character behind the white space decides. -/
theorem accept_append {sp rest : Units} {c d : Nat} (hsp : Space sp) (hd : isSpace d = false) :
    accept c (sp ++ d :: rest) = if d = c then some rest else none := by
  unfold accept
  rw [skipSpace_append hsp hd]

/-- What may stand behind a value. -/
def Follow (rest : Units) : Prop :=
  ∀ c tl, rest = c :: tl → isSpace c = true ∨ c = 44 ∨ c = 93 ∨ c = 125

/-- A value may be followed by white space and one of the marks behind a value. -/
theorem follow_append {sp rest : Units} {d : Nat} (hsp : Space sp) (hd : d = 44 ∨ d = 93 ∨ d = 125) :
    Follow (sp ++ d :: rest) := by
  intro c tl h
  cases sp with
  | nil =>
    obtain ⟨rfl, -⟩ := List.cons.inj h
    exact .inr hd
  | cons e sp =>
    obtain ⟨rfl, -⟩ := List.cons.inj h
    exact .inl (hsp _ List.mem_cons_self)

/-- A value may be followed by white space alone. -/
theorem follow_space {sp : Units} (hsp : Space sp) : Follow sp := by
  intro c tl h
  exact .inl (hsp c (h ▸ List.mem_cons_self))

/-- Not a digit, nor anything else a number may go on with. -/
def Stops (rest : Units) : Prop :=
  ∀ c tl, rest = c :: tl → isNumeral c = false ∧ c ≠ 46 ∧ c ≠ 101 ∧ c ≠ 69

/-- What may follow a value ends a number. -/
theorem Follow.stops {rest : Units} (h : Follow rest) : Stops rest := by
  intro c tl htl
  have hspace : isSpace c = true → c = 32 ∨ c = 9 ∨ c = 10 ∨ c = 13 := by
    simp [isSpace, or_assoc]
  have hcases : c = 32 ∨ c = 9 ∨ c = 10 ∨ c = 13 ∨ c = 44 ∨ c = 93 ∨ c = 125 := by
    rcases h c tl htl with hc | hc
    · rcases hspace hc with h | h | h | h <;> simp [h]
    · rcases hc with h | h | h <;> simp [h]
  rcases hcases with rfl | rfl | rfl | rfl | rfl | rfl | rfl <;> decide

/-- A text that does not start with a digit. -/
def NoNumeral (rest : Units) : Prop := ∀ c tl, rest = c :: tl → isNumeral c = false

/-- A run of numerals ends where the numerals end. -/
theorem takeWhile_numerals {ds rest : Units} (hds : ∀ c ∈ ds, isNumeral c = true)
    (hrest : NoNumeral rest) :
    (ds ++ rest).takeWhile isNumeral = ds ∧ (ds ++ rest).dropWhile isNumeral = rest := by
  rw [List.takeWhile_append_of_pos hds, List.dropWhile_append_of_pos hds]
  cases rest with
  | nil => simp
  | cons c tl =>
    have hc := hrest c tl rfl
    rw [List.takeWhile_cons_of_neg (by simp [hc]), List.dropWhile_cons_of_neg (by simp [hc])]
    simp

/-- An exponent is read to its end. -/
theorem expPart_complete {e rest : Units} (he : IsExp e) (hrest : Stops rest) :
    expPart (e ++ rest) = (e, rest) := by
  rcases he with rfl | ⟨c, s, ds, rfl, hc, hs, hds⟩
  · cases rest with
    | nil => rfl
    | cons c tl =>
      obtain ⟨-, -, h101, h69⟩ := hrest c tl rfl
      show expPart (c :: tl) = _
      rw [expPart]
      dsimp only
      rw [if_neg]
      rintro ⟨h | h, -⟩
      · exact h101 h
      · exact h69 h
  · have hno : NoNumeral rest := fun d tl h => (hrest d tl h).1
    obtain ⟨htake, hdrop⟩ := takeWhile_numerals hds.all hno
    have hsign : signPart [43, 45] (s ++ (ds ++ rest)) = (s, ds ++ rest) := by
      rcases hs with rfl | rfl | rfl
      · cases hd : ds with
        | nil => exact absurd hd hds.ne
        | cons d ds' =>
          have hdigit := hds.all d (hd ▸ List.mem_cons_self)
          show signPart [43, 45] (d :: (ds' ++ rest)) = _
          rw [signPart, if_neg]
          · rfl
          · intro hmem
            simp only [List.mem_cons, List.not_mem_nil, or_false] at hmem
            rcases hmem with rfl | rfl <;> exact absurd hdigit (by decide)
      · rfl
      · rfl
    rw [List.cons_append, List.append_assoc, expPart, hsign]
    dsimp only
    rw [htake, hdrop, if_pos ⟨hc, hds.ne⟩]

/-- An exponent begins with its letter. -/
theorem isExp_head {e : Units} (he : IsExp e) {c : Nat} {tl : Units} (h : e = c :: tl) :
    c = 101 ∨ c = 69 := by
  rcases he with rfl | ⟨c', s, ds, rfl, hc, -, -⟩
  · cases h
  · obtain ⟨rfl, -⟩ := List.cons.inj h
    exact hc

/-- Behind the digits before the exponent there is no digit. -/
theorem noNumeral_exp {e rest : Units} (he : IsExp e) (hrest : Stops rest) :
    NoNumeral (e ++ rest) := by
  intro c tl h
  cases e with
  | nil => exact (hrest c tl h).1
  | cons d e =>
    obtain ⟨rfl, -⟩ := List.cons.inj h
    rcases isExp_head he rfl with rfl | rfl <;> decide

/-- A fraction is read to its end, with the exponent behind it. -/
theorem fracPart_complete {f e rest : Units} (hf : IsFrac f) (he : IsExp e) (hrest : Stops rest) :
    fracPart (f ++ (e ++ rest)) = (f, e ++ rest) := by
  rcases hf with rfl | ⟨ds, rfl, hds⟩
  · cases hall : e ++ rest with
    | nil => rfl
    | cons c tl =>
      have hdot : c ≠ 46 := by
        cases e with
        | nil => exact (hrest c tl hall).2.1
        | cons d e =>
          obtain ⟨rfl, -⟩ := List.cons.inj hall
          rcases isExp_head he rfl with rfl | rfl <;> decide
      show fracPart (c :: tl) = _
      rw [fracPart, if_neg]
      intro h
      exact hdot h.1
  · obtain ⟨htake, hdrop⟩ := takeWhile_numerals hds.all (noNumeral_exp he hrest)
    rw [List.cons_append, fracPart, htake, hdrop, if_pos ⟨rfl, hds.ne⟩]

/-- An integer part is read to its end. -/
theorem intPart_complete {i rest : Units} (hi : IsInt i) (hrest : NoNumeral rest) :
    intPart (i ++ rest) = some (i, rest) := by
  rcases hi with rfl | ⟨hds, hzero⟩
  · rfl
  · cases i with
    | nil => exact absurd rfl hds.ne
    | cons c ds =>
      have hc := hds.all c List.mem_cons_self
      obtain ⟨htake, hdrop⟩ :=
        takeWhile_numerals (fun d hd => hds.all d (List.mem_cons_of_mem _ hd)) hrest
      have hne : c ≠ 48 := by simpa using hzero
      rw [List.cons_append, intPart, if_neg hne, if_pos hc, htake, hdrop]

/-- What comes behind an integer part begins with no numeral. -/
theorem noNumeral_frac {f e rest : Units} (hf : IsFrac f) (he : IsExp e) (hrest : Stops rest) :
    NoNumeral (f ++ (e ++ rest)) := by
  rcases hf with rfl | ⟨ds, rfl, -⟩
  · show NoNumeral (e ++ rest)
    exact noNumeral_exp he hrest
  · intro c tl h
    obtain ⟨rfl, -⟩ := List.cons.inj h
    decide

/-- An integer part begins with a numeral. -/
theorem isInt_head {i : Units} (hi : IsInt i) : ∃ c tl, i = c :: tl ∧ isNumeral c = true := by
  rcases hi with rfl | ⟨hds, -⟩
  · exact ⟨48, [], rfl, by decide⟩
  · cases i with
    | nil => exact absurd rfl hds.ne
    | cons c ds => exact ⟨c, ds, rfl, hds.all c List.mem_cons_self⟩

/-- **A number of the grammar is read to its end.** -/
theorem number_complete {l rest : Units} (hl : IsNumber l) (hrest : Stops rest) :
    number (l ++ rest) = some (l, rest) := by
  obtain ⟨s, i, f, e, rfl, hs, hi, hf, he⟩ := hl
  have hint := intPart_complete hi (noNumeral_frac hf he hrest)
  have hsign : signPart [45] (s ++ (i ++ (f ++ (e ++ rest)))) = (s, i ++ (f ++ (e ++ rest))) := by
    rcases hs with rfl | rfl
    · obtain ⟨c, tl, rfl, hc⟩ := isInt_head hi
      show signPart [45] (c :: (tl ++ _)) = _
      rw [signPart, if_neg]
      · rfl
      · intro hmem
        rw [List.mem_singleton.mp hmem] at hc
        exact absurd hc (by decide)
    · rfl
  unfold number
  simp only [List.append_assoc, hsign, hint, fracPart_complete hf he hrest,
    expPart_complete he hrest]

/-- **A string of the grammar is read to its quote.** -/
theorem string_complete {l : Units} (h : Chars l) (rest : Units) :
    string (l ++ 34 :: rest) = some (l, rest) := by
  induction h with
  | nil =>
    cases rest with
    | nil => rfl
    | cons e rest => rfl
  | @plain c tl hc h ih =>
    obtain ⟨e, tl', htl⟩ : ∃ e tl', tl ++ 34 :: rest = e :: tl' := by
      cases tl with
      | nil => exact ⟨34, rest, rfl⟩
      | cons e tl => exact ⟨e, tl ++ 34 :: rest, rfl⟩
    rw [List.cons_append, htl, string, if_neg hc.2.1, if_neg hc.2.2, if_pos hc.1, ← htl, ih]
    rfl
  | @escape e tl he h ih =>
    rw [List.cons_append, List.cons_append, string, if_neg (by decide), if_pos rfl, escaped_append,
      if_pos he, ih]
    rfl

/-- A character that opens or closes nothing. -/
def Bare (c : Nat) : Prop :=
  isSpace c = false ∧ c ≠ 34 ∧ c ≠ 91 ∧ c ≠ 123 ∧ c ≠ 93 ∧ c ≠ 125

instance (c : Nat) : Decidable (Bare c) := inferInstanceAs (Decidable (_ ∧ _))

/-- A table the parser can tell apart from the rest of the language. -/
structure Words.Plain (ws : Words) : Prop where
  bare : ∀ l v, (l, v) ∈ ws → ∃ c tl, l = c :: tl ∧ Bare c
  found : ∀ l v rest, (l, v) ∈ ws → word ws (l ++ rest) = some (l, v)
  number : ∀ l rest, IsNumber l → word ws (l ++ rest) = none

/-- A number begins with a numeral, or with a minus and a numeral. -/
theorem isNumber_head {l : Units} (h : IsNumber l) :
    ∃ c tl, l = c :: tl ∧ (isNumeral c = true ∨ c = 45 ∧ ∃ d tl', tl = d :: tl' ∧ isNumeral d = true) := by
  obtain ⟨s, i, f, e, rfl, hs, hi, -, -⟩ := h
  obtain ⟨c, tl, rfl, hc⟩ := isInt_head hi
  rcases hs with rfl | rfl
  · exact ⟨c, tl ++ f ++ e, by simp, .inl hc⟩
  · exact ⟨45, c :: tl ++ f ++ e, by simp, .inr ⟨rfl, c, tl ++ f ++ e, by simp, hc⟩⟩

/-- No value of another kind begins with a numeral. -/
theorem bare_numeral {c : Nat} (h : isNumeral c = true) : Bare c := by
  simp only [isNumeral, Bool.and_eq_true, decide_eq_true_eq] at h
  refine ⟨?_, by omega, by omega, by omega, by omega, by omega⟩
  simp only [isSpace, Bool.or_eq_false_iff, decide_eq_false_iff_not]
  omega

/-- No value of another kind begins like a number. -/
theorem isNumber_bare {l : Units} (h : IsNumber l) : ∃ c tl, l = c :: tl ∧ Bare c := by
  obtain ⟨c, tl, hl, hc | ⟨rfl, -⟩⟩ := isNumber_head h
  · exact ⟨c, tl, hl, bare_numeral hc⟩
  · exact ⟨45, tl, hl, by decide⟩

/-- The words of JSON begin differently from each other and from numbers. -/
theorem words_plain : Words.Plain words where
  bare := by
    intro l v h
    simp only [words, List.mem_cons, List.not_mem_nil, or_false, Prod.mk.injEq] at h
    rcases h with ⟨rfl, -⟩ | ⟨rfl, -⟩ | ⟨rfl, -⟩
    · exact ⟨110, _, rfl, by decide⟩
    · exact ⟨116, _, rfl, by decide⟩
    · exact ⟨102, _, rfl, by decide⟩
  found := by
    intro l v rest h
    simp only [words, List.mem_cons, List.not_mem_nil, or_false, Prod.mk.injEq] at h
    rcases h with ⟨rfl, rfl⟩ | ⟨rfl, rfl⟩ | ⟨rfl, rfl⟩ <;> rfl
  number := by
    intro l rest h
    unfold word
    rw [List.find?_eq_none]
    intro e he hprefix
    obtain ⟨c, tl, rfl, hc⟩ := isNumber_head h
    have hlow : c < 58 := by
      rcases hc with hc | ⟨rfl, -⟩
      · simp only [isNumeral, Bool.and_eq_true, decide_eq_true_eq] at hc
        omega
      · decide
    simp only [words, List.mem_cons, List.not_mem_nil, or_false] at he
    obtain ⟨t, ht⟩ := List.isPrefixOf_iff_prefix.mp hprefix
    rcases he with rfl | rfl | rfl
    · obtain ⟨rfl, -⟩ := List.cons.inj ht
      exact absurd hlow (by decide)
    · obtain ⟨rfl, -⟩ := List.cons.inj ht
      exact absurd hlow (by decide)
    · obtain ⟨rfl, -⟩ := List.cons.inj ht
      exact absurd hlow (by decide)

variable {ws : Words} {item : Item} {text rest : Units}

/-- A text that starts with no white space, and closes nothing. -/
def Begins (text : Units) : Prop := ∃ c tl, text = c :: tl ∧ isSpace c = false ∧ c ≠ 93 ∧ c ≠ 125

/-- What a production derives starts with a character that is no white space, and closes nothing. -/
theorem Reads.head (hws : ws.Plain) (h : Reads ws item text rest) : Begins text := by
  have hbare : ∀ {l rest : Units}, (∃ c tl, l = c :: tl ∧ Bare c) →
      ∃ c tl, l ++ rest = c :: tl ∧ isSpace c = false ∧ c ≠ 93 ∧ c ≠ 125 := by
    rintro l rest ⟨c, tl, rfl, hc⟩
    exact ⟨c, tl ++ rest, rfl, hc.1, hc.2.2.2.2.1, hc.2.2.2.2.2⟩
  induction h with
  | word h => exact hbare (hws.bare _ _ h)
  | num h => exact hbare (isNumber_bare h)
  | str h => exact ⟨34, _, rfl, by decide⟩
  | arrNil hsp => exact ⟨91, _, rfl, by decide⟩
  | arr hsp h ih => exact ⟨91, _, rfl, by decide⟩
  | objNil hsp => exact ⟨123, _, rfl, by decide⟩
  | obj hsp h ih => exact ⟨123, _, rfl, by decide⟩
  | last hsp h ih => exact ih
  | next hsp hsp' h h' ih ih' => exact ih
  | lastField hsp h ih => exact ih
  | nextField hsp hsp' h h' ih ih' => exact ih
  | field hk hsp hsp' h ih => exact ⟨34, _, rfl, by decide⟩

/-- What a production derives is not empty. -/
theorem Reads.length (hws : ws.Plain) (h : Reads ws item text rest) : rest.length < text.length := by
  induction h with
  | word h =>
    obtain ⟨c, tl, rfl, -⟩ := hws.bare _ _ h
    simp only [List.length_append, List.length_cons]
    omega
  | num h =>
    obtain ⟨c, tl, rfl, -⟩ := isNumber_head h
    simp only [List.length_append, List.length_cons]
    omega
  | _ => simp only [List.length_cons, List.length_append] at *; omega

/-- Only a value that closes nothing behind itself needs to know what comes next. -/
def FollowOf : Item → Units → Prop
  | .value _, rest => Follow rest
  | .field _ _, rest => Follow rest
  | _, _ => True

/-- What the parser is to return for a production. -/
def Parses (ws : Words) (n : Nat) (text rest : Units) : Item → Prop
  | .value v => value ws n text = some (v, rest)
  | .elements vs => elements ws n text = some (vs, rest)
  | .members fs => members ws n text = some (fs, rest)
  | .field k v => field ws n text = some ((k, v), rest)

/-- A scalar that is a number is read as one. -/
theorem scalar_number (hws : ws.Plain) {l : Units} (hl : IsNumber l) (hrest : Follow rest) :
    scalar ws (l ++ rest) = some (.num l, rest) := by
  unfold scalar
  rw [hws.number l rest hl, number_complete hl hrest.stops]
  rfl

/-- A scalar that is a bare word is read as what it stands for. -/
theorem scalar_word (hws : ws.Plain) {l : Units} {v : Tree} (h : (l, v) ∈ ws) :
    scalar ws (l ++ rest) = some (v, rest) := by
  unfold scalar
  rw [hws.found l v rest h]
  dsimp only
  rw [List.drop_left]

/-- A value that is no string, array or object is a scalar. -/
theorem value_bare {n c : Nat} {tl : Units} (hc : Bare c) :
    value ws (n + 1) (c :: tl) = scalar ws (c :: tl) := by
  rw [value, if_neg hc.2.1, if_neg hc.2.2.1, if_neg hc.2.2.2.1]

/-! One lemma a production: what the parser returns for it, with one unit of fuel more than for its
parts. -/

section Productions

variable {n : Nat} {k l sp sp' text' : Units} {v : Tree} {vs : List Tree} {fs : List (Units × Tree)}

/-- A bare word is read. -/
theorem value_word (hws : ws.Plain) (h : (l, v) ∈ ws) : value ws (n + 1) (l ++ rest) = some (v, rest) := by
  have hscalar : scalar ws (l ++ rest) = some (v, rest) := scalar_word hws h
  obtain ⟨c, tl, rfl, hc⟩ := hws.bare _ _ h
  show value ws (n + 1) (c :: (tl ++ rest)) = _
  rw [value_bare hc]
  exact hscalar

/-- A number is read, if it ends where the grammar says. -/
theorem value_number (hws : ws.Plain) (h : IsNumber l) (hrest : Follow rest) :
    value ws (n + 1) (l ++ rest) = some (.num l, rest) := by
  have hscalar := scalar_number hws h hrest
  obtain ⟨c, tl, rfl, hc⟩ := isNumber_bare h
  show value ws (n + 1) (c :: (tl ++ rest)) = _
  rw [value_bare hc]
  exact hscalar

/-- A string is read. -/
theorem value_string (h : Chars l) : value ws (n + 1) (34 :: (l ++ 34 :: rest)) = some (.str l, rest) := by
  rw [value, if_pos rfl, string_complete h]
  rfl

/-- An array without elements is read. -/
theorem value_emptyArray (hsp : Space sp) :
    value ws (n + 1) (91 :: (sp ++ 93 :: rest)) = some (.arr [], rest) := by
  rw [value, if_neg (by decide), if_pos rfl, accept_append hsp (by decide), if_pos rfl]

/-- An array is read, if its elements are. -/
theorem value_array (hsp : Space sp) (hbegins : Begins text) (h : elements ws n text = some (vs, rest)) :
    value ws (n + 1) (91 :: (sp ++ text)) = some (.arr vs, rest) := by
  obtain ⟨c, tl, htext, hc, h93, -⟩ := hbegins
  rw [value, if_neg (by decide), if_pos rfl, htext, accept_append hsp hc, if_neg h93,
    skipSpace_append hsp hc, ← htext]
  dsimp only
  rw [h]
  rfl

/-- An object without fields is read. -/
theorem value_emptyObject (hsp : Space sp) :
    value ws (n + 1) (123 :: (sp ++ 125 :: rest)) = some (.obj [], rest) := by
  rw [value, if_neg (by decide), if_neg (by decide), if_pos rfl, accept_append hsp (by decide), if_pos rfl]

/-- An object is read, if its fields are. -/
theorem value_object (hsp : Space sp) (hbegins : Begins text) (h : members ws n text = some (fs, rest)) :
    value ws (n + 1) (123 :: (sp ++ text)) = some (.obj fs, rest) := by
  obtain ⟨c, tl, htext, hc, -, h125⟩ := hbegins
  rw [value, if_neg (by decide), if_neg (by decide), if_pos rfl, htext, accept_append hsp hc,
    if_neg h125, skipSpace_append hsp hc, ← htext]
  dsimp only
  rw [h]
  rfl

/-- The last element closes the array. -/
theorem elements_last (hsp : Space sp) (h : value ws n text = some (v, sp ++ 93 :: rest)) :
    elements ws (n + 1) text = some ([v], rest) := by
  rw [elements, h]
  dsimp only
  rw [accept_append hsp (by decide), if_pos rfl]

/-- An element that is not the last is followed by a comma. -/
theorem elements_next (hsp : Space sp) (hsp' : Space sp') (hbegins : Begins text')
    (h : value ws n text = some (v, sp ++ 44 :: (sp' ++ text')))
    (h' : elements ws n text' = some (vs, rest)) : elements ws (n + 1) text = some (v :: vs, rest) := by
  obtain ⟨c, tl, htext, hc, -, -⟩ := hbegins
  rw [elements, h]
  dsimp only
  rw [accept_append hsp (by decide), if_neg (by decide), accept_append hsp (by decide), if_pos rfl]
  dsimp only
  rw [htext, skipSpace_append hsp' hc, ← htext, h']
  rfl

/-- The last field closes the object. -/
theorem members_last (hsp : Space sp) (h : field ws n text = some ((k, v), sp ++ 125 :: rest)) :
    members ws (n + 1) text = some ([(k, v)], rest) := by
  rw [members, h]
  dsimp only
  rw [accept_append hsp (by decide), if_pos rfl]

/-- A field that is not the last is followed by a comma. -/
theorem members_next (hsp : Space sp) (hsp' : Space sp') (hbegins : Begins text')
    (h : field ws n text = some ((k, v), sp ++ 44 :: (sp' ++ text')))
    (h' : members ws n text' = some (fs, rest)) :
    members ws (n + 1) text = some ((k, v) :: fs, rest) := by
  obtain ⟨c, tl, htext, hc, -, -⟩ := hbegins
  rw [members, h]
  dsimp only
  rw [accept_append hsp (by decide), if_neg (by decide), accept_append hsp (by decide), if_pos rfl]
  dsimp only
  rw [htext, skipSpace_append hsp' hc, ← htext, h']
  rfl

/-- A field is a name, a colon and a value. -/
theorem field_value (hk : Chars k) (hsp : Space sp) (hsp' : Space sp') (hbegins : Begins text)
    (h : value ws n text = some (v, rest)) :
    field ws (n + 1) (34 :: (k ++ 34 :: (sp ++ 58 :: (sp' ++ text)))) = some ((k, v), rest) := by
  obtain ⟨c, tl, htext, hc, -, -⟩ := hbegins
  rw [field, if_pos rfl, string_complete hk]
  dsimp only
  rw [accept_append hsp (by decide), if_pos rfl]
  dsimp only
  rw [htext, skipSpace_append hsp' hc, ← htext, h]
  rfl

end Productions

/-- Two units of fuel a character leave one to go on with. -/
theorem Reads.fuel (hws : ws.Plain) (h : Reads ws item text rest) {n : Nat}
    (hn : 2 * text.length ≤ n + 2 * rest.length) : ∃ m, n = m + 1 := by
  have hlen := h.length hws
  exact ⟨n - 1, by omega⟩

/-- **Completeness**, by induction on the derivation; two units of fuel a character are
    enough. -/
theorem complete (hws : ws.Plain) (h : Reads ws item text rest) :
    FollowOf item rest → ∀ n, 2 * text.length ≤ n + 2 * rest.length → Parses ws n text rest item := by
  induction h with
  | word h =>
    intro _ n hn
    obtain ⟨n, rfl⟩ := (Reads.word h).fuel hws hn
    exact value_word hws h
  | num h =>
    intro hfollow n hn
    obtain ⟨n, rfl⟩ := (Reads.num h).fuel hws hn
    exact value_number hws h hfollow
  | str h =>
    intro _ n hn
    obtain ⟨n, rfl⟩ := (Reads.str h).fuel hws hn
    exact value_string h
  | arrNil hsp =>
    intro _ n hn
    obtain ⟨n, rfl⟩ := (Reads.arrNil hsp).fuel hws hn
    exact value_emptyArray hsp
  | arr hsp h ih =>
    intro _ n hn
    obtain ⟨n, rfl⟩ := (Reads.arr hsp h).fuel hws hn
    refine value_array hsp (h.head hws) (ih trivial n ?_)
    simp only [List.length_append, List.length_cons] at hn
    omega
  | objNil hsp =>
    intro _ n hn
    obtain ⟨n, rfl⟩ := (Reads.objNil hsp).fuel hws hn
    exact value_emptyObject hsp
  | obj hsp h ih =>
    intro _ n hn
    obtain ⟨n, rfl⟩ := (Reads.obj hsp h).fuel hws hn
    refine value_object hsp (h.head hws) (ih trivial n ?_)
    simp only [List.length_append, List.length_cons] at hn
    omega
  | last hsp h ih =>
    intro _ n hn
    obtain ⟨n, rfl⟩ := (Reads.last hsp h).fuel hws hn
    refine elements_last hsp (ih (follow_append hsp (.inr (.inl rfl))) n ?_)
    simp only [List.length_append, List.length_cons]
    omega
  | next hsp hsp' h h' ih ih' =>
    intro _ n hn
    obtain ⟨n, rfl⟩ := (Reads.next hsp hsp' h h').fuel hws hn
    -- each part has the fuel for its own characters: the comma is in neither
    have hlen := h.length hws
    have hlen' := h'.length hws
    simp only [List.length_append, List.length_cons] at hlen
    refine elements_next hsp hsp' (h'.head hws) (ih (follow_append hsp (.inl rfl)) n ?_)
      (ih' trivial n (by omega))
    simp only [List.length_append, List.length_cons]
    omega
  | lastField hsp h ih =>
    intro _ n hn
    obtain ⟨n, rfl⟩ := (Reads.lastField hsp h).fuel hws hn
    refine members_last hsp (ih (follow_append hsp (.inr (.inr rfl))) n ?_)
    simp only [List.length_append, List.length_cons]
    omega
  | nextField hsp hsp' h h' ih ih' =>
    intro _ n hn
    obtain ⟨n, rfl⟩ := (Reads.nextField hsp hsp' h h').fuel hws hn
    have hlen := h.length hws
    have hlen' := h'.length hws
    simp only [List.length_append, List.length_cons] at hlen
    refine members_next hsp hsp' (h'.head hws) (ih (follow_append hsp (.inl rfl)) n ?_)
      (ih' trivial n (by omega))
    simp only [List.length_append, List.length_cons]
    omega
  | field hk hsp hsp' h ih =>
    intro hfollow n hn
    obtain ⟨n, rfl⟩ := (Reads.field hk hsp hsp' h).fuel hws hn
    refine field_value hk hsp hsp' (h.head hws) (ih hfollow n ?_)
    simp only [List.length_append, List.length_cons] at hn
    omega

/-- **The parser returns `v` exactly on the texts of `v`.** -/
theorem parse_eq_some (hws : ws.Plain) {v : Tree} : parse ws text = some v ↔ Document ws v text := by
  constructor
  · exact parse_sound
  · rintro ⟨sp, text', sp', hsp, hsp', rfl, h⟩
    obtain ⟨c, tl, htext, hc, -, -⟩ := h.head hws
    have hskip : skipSpace (sp ++ text') = text' := by
      rw [htext]
      exact skipSpace_append hsp hc
    have hvalue : value ws (2 * (sp ++ text').length) text' = some (v, sp') := by
      refine complete hws h (follow_space hsp') _ ?_
      rw [List.length_append]
      omega
    have hend : skipSpace sp' = [] := by
      unfold skipSpace
      rw [← List.append_nil sp', List.dropWhile_append_of_pos hsp', List.dropWhile_nil]
    unfold parse
    rw [hskip, hvalue]
    dsimp only
    rw [if_pos hend]

end Complete

/-! ## §2. The text without white space. -/

mutual

def print : Tree → Units
  | .null => units "null"
  | .bool true => units "true"
  | .bool false => units "false"
  | .num l => l
  | .str l => 34 :: (l ++ [34])
  | .arr [] => [91, 93]
  | .arr (v :: vs) => 91 :: (print v ++ printElements vs)
  | .obj [] => [123, 125]
  | .obj ((k, v) :: fs) => 123 :: (34 :: (k ++ 34 :: 58 :: print v) ++ printMembers fs)

/-- The elements after the first, and the bracket. -/
def printElements : List Tree → Units
  | [] => [93]
  | v :: vs => 44 :: (print v ++ printElements vs)

/-- The fields after the first, and the bracket. -/
def printMembers : List (Units × Tree) → Units
  | [] => [125]
  | (k, v) :: fs => 44 :: (34 :: (k ++ 34 :: 58 :: print v) ++ printMembers fs)

end

mutual

/-- Every literal is one. -/
def Tree.Spelled : Tree → Prop
  | .num l => IsNumber l
  | .str l => Chars l
  | .arr vs => AllSpelled vs
  | .obj fs => FieldsSpelled fs
  | _ => True

def AllSpelled : List Tree → Prop
  | [] => True
  | v :: vs => v.Spelled ∧ AllSpelled vs

def FieldsSpelled : List (Units × Tree) → Prop
  | [] => True
  | (k, v) :: fs => Chars k ∧ v.Spelled ∧ FieldsSpelled fs

end

section Print

/-- There may be no white space at all. -/
theorem space_nil : Space [] := by
  intro c hc
  cases hc

variable {ws : Words}

mutual

/-- **What is printed is in the grammar**, by recursion on the tree. -/
theorem reads_print (hsub : ∀ e ∈ words, e ∈ ws) : ∀ (v : Tree), v.Spelled → ∀ rest,
    Reads ws (.value v) (print v ++ rest) rest
  | .null, _, rest => by
    have hr : Reads ws (.value .null) (units "null" ++ rest) rest :=
      .word (hsub _ (by simp [words]))
    simpa [print] using hr
  | .bool true, _, rest => by
    have hr : Reads ws (.value (.bool true)) (units "true" ++ rest) rest :=
      .word (hsub _ (by simp [words]))
    simpa [print] using hr
  | .bool false, _, rest => by
    have hr : Reads ws (.value (.bool false)) (units "false" ++ rest) rest :=
      .word (hsub _ (by simp [words]))
    simpa [print] using hr
  | .num l, h, rest => by
    have hr : Reads ws (.value (.num l)) (l ++ rest) rest := .num h
    simpa [print] using hr
  | .str l, h, rest => by
    have hr : Reads ws (.value (.str l)) (34 :: (l ++ 34 :: rest)) rest := .str h
    simpa [print] using hr
  | .arr [], _, rest => by
    have hr : Reads ws (.value (.arr [])) (91 :: ([] ++ 93 :: rest)) rest := .arrNil space_nil
    simpa [print] using hr
  | .arr (v :: vs), h, rest => by
    have hr := reads_printElements hsub v vs (reads_print hsub v h.1) h.2 rest
    have ha : Reads ws (.value (.arr (v :: vs)))
        (91 :: ([] ++ (print v ++ (printElements vs ++ rest)))) rest := .arr space_nil hr
    simpa [print] using ha
  | .obj [], _, rest => by
    have hr : Reads ws (.value (.obj [])) (123 :: ([] ++ 125 :: rest)) rest := .objNil space_nil
    simpa [print] using hr
  | .obj ((k, v) :: fs), h, rest => by
    have hr := reads_printMembers hsub k v fs h.1 (reads_print hsub v h.2.1) h.2.2 rest
    have ho : Reads ws (.value (.obj ((k, v) :: fs)))
        (123 :: ([] ++ (34 :: (k ++ 34 :: 58 :: print v) ++ (printMembers fs ++ rest)))) rest :=
      .obj space_nil hr
    simpa [print] using ho

/-- The elements of an array, behind the first one. -/
theorem reads_printElements (hsub : ∀ e ∈ words, e ∈ ws) (v : Tree) : ∀ (vs : List Tree),
    (∀ rest, Reads ws (.value v) (print v ++ rest) rest) → AllSpelled vs →
    ∀ rest, Reads ws (.elements (v :: vs)) (print v ++ (printElements vs ++ rest)) rest
  | [], hv, _, rest => .last space_nil (hv (93 :: rest))
  | w :: vs, hv, h, rest => by
    have hr := reads_printElements hsub w vs (reads_print hsub w h.1) h.2 rest
    refine .next space_nil space_nil ?_ hr
    simpa [printElements] using hv (44 :: (print w ++ (printElements vs ++ rest)))

/-- The fields of an object, behind the first one. -/
theorem reads_printMembers (hsub : ∀ e ∈ words, e ∈ ws) (k : Units) (v : Tree) :
    ∀ (fs : List (Units × Tree)), Chars k →
    (∀ rest, Reads ws (.value v) (print v ++ rest) rest) → FieldsSpelled fs →
    ∀ rest, Reads ws (.members ((k, v) :: fs))
      (34 :: (k ++ 34 :: 58 :: print v) ++ (printMembers fs ++ rest)) rest
  | [], hk, hv, _, rest => by
    have hf : Reads ws (.field k v) (34 :: (k ++ 34 :: ([] ++ 58 :: ([] ++ (print v ++ 125 :: rest)))))
        (125 :: rest) := .field hk space_nil space_nil (hv (125 :: rest))
    refine .lastField space_nil ?_
    simpa [printMembers] using hf
  | (k', v') :: fs, hk, hv, h, rest => by
    have hr := reads_printMembers hsub k' v' fs h.1 (reads_print hsub v' h.2.1) h.2.2 rest
    have hf : Reads ws (.field k v)
        (34 :: (k ++ 34 :: ([] ++ 58 :: ([] ++ (print v ++ (44 :: (34 :: (k' ++ 34 :: 58 :: print v')
          ++ (printMembers fs ++ rest))))))))
        (44 :: (34 :: (k' ++ 34 :: 58 :: print v') ++ (printMembers fs ++ rest))) :=
      .field hk space_nil space_nil (hv _)
    refine .nextField space_nil space_nil ?_ hr
    simpa [printMembers] using hf

end

/-- **Reading what was printed.** -/
theorem parse_print (hws : ws.Plain) (hsub : ∀ e ∈ words, e ∈ ws) {v : Tree} (h : v.Spelled) :
    parse ws (print v) = some v := by
  have hr := reads_print hsub v h []
  rw [List.append_nil] at hr
  exact (parse_eq_some hws).mpr ⟨[], _, [], space_nil, space_nil, rfl, hr⟩

end Print

end My98.Lib.JsonText
