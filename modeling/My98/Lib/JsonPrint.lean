/-
  My98.Lib.JsonPrint — what a tree looks like when it is printed.

  `print` writes a tree without white space.  Here are the facts that a writer of JSON needs: how
  a natural number is spelled, how long the text becomes, and which characters are in it.

    • `numeral`             — a natural number as a literal;
    • `length_printElements`,
      `length_printMembers` — the length of a list and of an object;
    • `print_ascii`         — one byte a character, if the literals are;
    • `print_drawn`         — the same for characters of any kind.

  Nothing here mentions the modelled program.
-/
import Mathlib.Algebra.Order.Ring.Nat
import Mathlib.Tactic.Common
import My98.Lib.JsonExact
import My98.Lib.Text

namespace My98.Lib.JsonText

/-! ## §1. Numbers. -/

/-- A natural number, spelled. -/
def numeral (n : Nat) : Units := (Nat.toDigits 10 n).map Char.toNat

/-- A decimal digit is a numeral of the grammar. -/
theorem digit_isNumeral {c : Char} (h : c.isDigit = true) : isNumeral c.toNat = true := by
  obtain ⟨hlow, hhigh⟩ := isDigit_toNat h
  rw [isNumeral, Bool.and_eq_true, decide_eq_true_eq, decide_eq_true_eq]
  exact ⟨hlow, hhigh⟩

/-- A number is written with numerals. -/
theorem numeral_all (n : Nat) : ∀ c ∈ numeral n, isNumeral c = true := by
  intro c hc
  obtain ⟨d, hd, rfl⟩ := List.mem_map.mp hc
  exact digit_isNumeral (Nat.isDigit_of_mem_toDigits (by decide) (by decide) hd)

/-- A number is written with at least one numeral. -/
theorem numeral_ne_nil (n : Nat) : numeral n ≠ [] := by
  rw [numeral, ne_eq, List.map_eq_nil_iff]
  exact Nat.toDigits_ne_nil

/-- **A number that is spelled is a number.** -/
theorem numeral_isNumber (n : Nat) : IsNumber (numeral n) := by
  refine ⟨[], numeral n, [], [], by simp, .inl rfl, ?_, .inl rfl, .inl rfl⟩
  rcases Nat.eq_zero_or_pos n with rfl | hpos
  · exact .inl (by decide)
  · refine .inr ⟨⟨numeral_ne_nil n, numeral_all n⟩, ?_⟩
    rw [numeral, List.head?_map]
    intro h
    obtain ⟨c, hc, hzero⟩ := Option.map_eq_some_iff.mp h
    refine head_toDigits hpos ?_
    rw [hc]
    exact congrArg some (Char.toNat_inj.mp hzero)

/-- A number is written with no more numerals than its size asks for. -/
theorem length_numeral {n k : Nat} (hk : 0 < k) (h : n < 10 ^ k) : (numeral n).length ≤ k := by
  rw [numeral, List.length_map]
  exact (Nat.length_toDigits_le_iff (by omega) hk).mpr h

/-- A number is written in ASCII. -/
theorem numeral_ascii (n : Nat) : Ascii (numeral n) := by
  intro c hc
  have hnumeral := numeral_all n c hc
  simp only [isNumeral, Bool.and_eq_true, decide_eq_true_eq] at hnumeral
  omega

/-! ## §2. How long it is. -/

/-- The length of a list is that of its elements, with a comma or bracket for each. -/
theorem length_printElements (vs : List Tree) :
    (printElements vs).length = (vs.map fun v => (print v).length + 1).sum + 1 := by
  induction vs with
  | nil => rw [printElements, List.map_nil, List.sum_nil, List.length_singleton]
  | cons v vs ih =>
    rw [printElements, List.length_cons, List.length_append, ih, List.map_cons, List.sum_cons]
    omega

/-- The length of the fields is that of names and values, with four marks for each. -/
theorem length_printMembers (fs : List (Units × Tree)) :
    (printMembers fs).length = (fs.map fun f => f.1.length + (print f.2).length + 4).sum + 1 := by
  induction fs with
  | nil => rw [printMembers, List.map_nil, List.sum_nil, List.length_singleton]
  | cons f fs ih =>
    obtain ⟨k, v⟩ := f
    rw [printMembers, List.map_cons, List.sum_cons]
    simp only [List.length_cons, List.length_append, ih]
    omega

/-- A bound for the length of an array. -/
theorem length_print_arr (vs : List Tree) :
    (print (.arr vs)).length ≤ (vs.map fun v => (print v).length + 1).sum + 2 := by
  cases vs with
  | nil =>
    rw [print]
    simp
  | cons v vs =>
    rw [print, List.length_cons, List.length_append, length_printElements, List.map_cons,
      List.sum_cons]
    omega

/-- A bound for the length of an object. -/
theorem length_print_obj (fs : List (Units × Tree)) :
    (print (.obj fs)).length ≤ (fs.map fun f => f.1.length + (print f.2).length + 4).sum + 2 := by
  cases fs with
  | nil =>
    rw [print]
    simp
  | cons f fs =>
    obtain ⟨k, v⟩ := f
    rw [print, List.map_cons, List.sum_cons]
    simp only [List.length_cons, List.length_append, length_printMembers]
    omega

/-! ## §3. Its characters. -/

mutual

/-- Every literal is of characters of one byte. -/
def Tree.OneByte : Tree → Prop
  | .num l => Ascii l
  | .str l => Ascii l
  | .arr vs => AllOneByte vs
  | .obj fs => FieldsOneByte fs
  | _ => True

def AllOneByte : List Tree → Prop
  | [] => True
  | v :: vs => v.OneByte ∧ AllOneByte vs

def FieldsOneByte : List (Units × Tree) → Prop
  | [] => True
  | (k, v) :: fs => Ascii k ∧ v.OneByte ∧ FieldsOneByte fs

end

/-- ASCII, character by character. -/
theorem Ascii.cons {c : Nat} {text : Units} (hc : 0 < c ∧ c < 128) (h : Ascii text) :
    Ascii (c :: text) := by
  intro d hd
  rcases List.mem_cons.mp hd with rfl | hd
  · exact hc
  · exact h d hd

/-- ASCII, text by text. -/
theorem Ascii.append {a b : Units} (ha : Ascii a) (hb : Ascii b) : Ascii (a ++ b) :=
  fun c hc => (List.mem_append.mp hc).elim (ha c) (hb c)

/-- The empty text is ASCII. -/
theorem Ascii.nil : Ascii [] := by
  intro c hc
  cases hc

/-- A name, quoted, with the value after it. -/
theorem Ascii.named {k text : Units} (hk : Ascii k) (h : Ascii text) :
    Ascii (34 :: (k ++ 34 :: 58 :: text)) :=
  .cons (by decide) (hk.append (.cons (by decide) (.cons (by decide) h)))

mutual

/-- **A tree of one-byte texts is printed in ASCII.**  The three functions go together, along the
tree. -/
theorem print_ascii : ∀ {v : Tree}, v.OneByte → Ascii (print v)
  | .null, _ => by
    rw [print]
    unfold Ascii
    decide
  | .bool true, _ => by
    rw [print]
    unfold Ascii
    decide
  | .bool false, _ => by
    rw [print]
    unfold Ascii
    decide
  | .num l, h => by
    rw [print]
    exact h
  | .str l, h => by
    have hl : Ascii l := h
    rw [print]
    exact .cons (by decide) (hl.append (.cons (by decide) .nil))
  | .arr [], _ => by
    rw [print]
    exact .cons (by decide) (.cons (by decide) .nil)
  | .arr (v :: vs), h => by
    rw [print]
    exact .cons (by decide) ((print_ascii h.1).append (printElements_ascii h.2))
  | .obj [], _ => by
    rw [print]
    exact .cons (by decide) (.cons (by decide) .nil)
  | .obj ((k, v) :: fs), h => by
    rw [print]
    exact .cons (by decide) ((Ascii.named h.1 (print_ascii h.2.1)).append (printMembers_ascii h.2.2))

/-- The elements of an array. -/
theorem printElements_ascii : ∀ {vs : List Tree}, AllOneByte vs → Ascii (printElements vs)
  | [], _ => by
    rw [printElements]
    exact .cons (by decide) .nil
  | v :: vs, h => by
    rw [printElements]
    exact .cons (by decide) ((print_ascii h.1).append (printElements_ascii h.2))

/-- The fields of an object. -/
theorem printMembers_ascii : ∀ {fs : List (Units × Tree)}, FieldsOneByte fs →
    Ascii (printMembers fs)
  | [], _ => by
    rw [printMembers]
    exact .cons (by decide) .nil
  | (k, v) :: fs, h => by
    rw [printMembers]
    exact .cons (by decide) ((Ascii.named h.1 (print_ascii h.2.1)).append (printMembers_ascii h.2.2))

end

/-! ## §4. Characters of any kind. -/

mutual

/-- Every literal is drawn from characters of that kind. -/
def Tree.Drawn (P : Nat → Prop) : Tree → Prop
  | .num l => ∀ c ∈ l, P c
  | .str l => ∀ c ∈ l, P c
  | .arr vs => AllDrawn P vs
  | .obj fs => FieldsDrawn P fs
  | _ => True

def AllDrawn (P : Nat → Prop) : List Tree → Prop
  | [] => True
  | v :: vs => v.Drawn P ∧ AllDrawn P vs

def FieldsDrawn (P : Nat → Prop) : List (Units × Tree) → Prop
  | [] => True
  | (k, v) :: fs => (∀ c ∈ k, P c) ∧ v.Drawn P ∧ FieldsDrawn P fs

end

section Drawn

variable {P : Nat → Prop}

/-- A text drawn from `P`, character by character. -/
theorem drawn_cons {c : Nat} {text : Units} (hc : P c) (h : ∀ d ∈ text, P d) : ∀ d ∈ c :: text, P d := by
  intro d hd
  rcases List.mem_cons.mp hd with rfl | hd
  · exact hc
  · exact h d hd

/-- A text drawn from `P`, text by text. -/
theorem drawn_append {a b : Units} (ha : ∀ c ∈ a, P c) (hb : ∀ c ∈ b, P c) : ∀ c ∈ a ++ b, P c :=
  fun c hc => (List.mem_append.mp hc).elim (ha c) (hb c)

/-- The empty text is drawn from any `P`. -/
theorem drawn_nil : ∀ c ∈ ([] : Units), P c := nofun

/-- A field is drawn from what its name and its value are drawn from, and ASCII. -/
theorem drawn_named (hascii : ∀ c, 0 < c ∧ c < 128 → P c) {k text : Units} (hk : ∀ c ∈ k, P c)
    (ht : ∀ c ∈ text, P c) : ∀ c ∈ 34 :: (k ++ 34 :: 58 :: text), P c :=
  drawn_cons (hascii 34 (by decide)) (drawn_append hk
    (drawn_cons (hascii 34 (by decide)) (drawn_cons (hascii 58 (by decide)) ht)))

mutual

/-- What is printed besides the literals is of one byte a character. -/
theorem print_drawn (hascii : ∀ c, 0 < c ∧ c < 128 → P c) :
    ∀ {v : Tree}, v.Drawn P → ∀ c ∈ print v, P c
  | .null, _ => fun c hc => hascii c (print_ascii (v := .null) trivial c hc)
  | .bool b, _ => fun c hc => hascii c (print_ascii (v := .bool b) trivial c hc)
  | .num l, h => by
    rw [print]
    exact h
  | .str l, h => by
    have hl : ∀ c ∈ l, P c := h
    rw [print]
    exact drawn_cons (hascii 34 (by decide)) (drawn_append hl (drawn_cons (hascii 34 (by decide)) drawn_nil))
  | .arr [], _ => by
    rw [print]
    exact drawn_cons (hascii 91 (by decide)) (drawn_cons (hascii 93 (by decide)) drawn_nil)
  | .arr (v :: vs), h => by
    rw [print]
    exact drawn_cons (hascii 91 (by decide))
      (drawn_append (print_drawn hascii h.1) (printElements_drawn hascii h.2))
  | .obj [], _ => by
    rw [print]
    exact drawn_cons (hascii 123 (by decide)) (drawn_cons (hascii 125 (by decide)) drawn_nil)
  | .obj ((k, v) :: fs), h => by
    rw [print]
    exact drawn_cons (hascii 123 (by decide))
      (drawn_append (drawn_named hascii h.1 (print_drawn hascii h.2.1)) (printMembers_drawn hascii h.2.2))

/-- The elements of an array. -/
theorem printElements_drawn (hascii : ∀ c, 0 < c ∧ c < 128 → P c) :
    ∀ {vs : List Tree}, AllDrawn P vs → ∀ c ∈ printElements vs, P c
  | [], _ => by
    rw [printElements]
    exact drawn_cons (hascii 93 (by decide)) drawn_nil
  | v :: vs, h => by
    rw [printElements]
    exact drawn_cons (hascii 44 (by decide))
      (drawn_append (print_drawn hascii h.1) (printElements_drawn hascii h.2))

/-- The fields of an object. -/
theorem printMembers_drawn (hascii : ∀ c, 0 < c ∧ c < 128 → P c) :
    ∀ {fs : List (Units × Tree)}, FieldsDrawn P fs → ∀ c ∈ printMembers fs, P c
  | [], _ => by
    rw [printMembers]
    exact drawn_cons (hascii 125 (by decide)) drawn_nil
  | (k, v) :: fs, h => by
    rw [printMembers]
    exact drawn_cons (hascii 44 (by decide))
      (drawn_append (drawn_named hascii h.1 (print_drawn hascii h.2.1)) (printMembers_drawn hascii h.2.2))

end

end Drawn

end My98.Lib.JsonText
