/-
  My98.Lib.Text — text as bytes: UTF-8 and its byte order mark, UTF-16 order, decimals.

    • `encodeText`, `utf8?`  — UTF-8, strictly: `utf8?_eq_some` makes them inverse;
    • `decodeText`           — the decoder of the web platform in fatal mode, which DROPS one
      leading byte order mark: `decodeText_eq_some`;
    • `utf16`, `textLt`      — the order in which JavaScript compares strings;
    • `naturalText`          — a decimal without leading zeros: `naturalText_eq_some`.
-/
import Mathlib.Algebra.Order.Ring.Nat
import Mathlib.Data.List.Induction
import Mathlib.Tactic.Common
import My98.Lib.Bytes

namespace My98.Lib

/-! ## §1. UTF-8. -/

/-- `TextEncoder.encode(text)`. -/
def encodeText (text : String) : Bytes := text.toList.flatMap String.utf8EncodeChar

/-- Strict UTF-8: no overlong form, no surrogate, nothing above U+10FFFF. -/
def utf8? (b : Bytes) : Option String := String.fromUTF8? b.toByteArray

theorem toByteArray_encodeText (s : String) : (encodeText s).toByteArray = s.toByteArray :=
  String.utf8Encode_toList

theorem toByteArray_injective {a b : Bytes} (h : a.toByteArray = b.toByteArray) : a = b := by
  have hdata := congrArg (fun x => x.data.toList) h
  simpa using hdata

theorem utf8?_eq_some {b : Bytes} {s : String} : utf8? b = some s ↔ b = encodeText s := by
  unfold utf8? String.fromUTF8?
  constructor
  · intro h
    split at h
    next hv =>
      obtain rfl := Option.some.inj h
      apply toByteArray_injective
      rw [toByteArray_encodeText]
      rfl
    · cases h
  · rintro rfl
    have hv : (encodeText s).toByteArray.IsValidUTF8 := by
      rw [toByteArray_encodeText]
      exact s.isValidUTF8
    rw [dif_pos hv]
    congr 1
    exact String.toByteArray_inj.mp (toByteArray_encodeText s)

theorem encodeText_injective {s t : String} (h : encodeText s = encodeText t) : s = t := by
  have hs := (utf8?_eq_some (b := encodeText s)).mpr rfl
  rw [h, utf8?_eq_some.mpr rfl] at hs
  exact (Option.some.inj hs).symm

/-- The UTF-8 form of U+FEFF. -/
def byteOrderMark : Bytes := [0xEF, 0xBB, 0xBF]

/-- With a byte order mark in front, or without. -/
def marked (mark : Bool) (b : Bytes) : Bytes := if mark then byteOrderMark ++ b else b

/-- `new TextDecoder("utf-8", {fatal: true}).decode(bytes)`. -/
def decodeText (b : Bytes) : Option String :=
  if b.take 3 = byteOrderMark then utf8? (b.drop 3) else utf8? b

theorem decodeText_sound {b : Bytes} {s : String} (h : decodeText b = some s) :
    ∃ mark, b = marked mark (encodeText s) := by
  unfold decodeText at h
  split at h
  next hmark =>
    refine ⟨true, ?_⟩
    rw [marked, if_pos rfl, ← utf8?_eq_some.mp h, ← hmark, List.take_append_drop]
  next => exact ⟨false, utf8?_eq_some.mp h⟩

theorem decodeText_marked {s : String} (hs : (encodeText s).take 3 ≠ byteOrderMark)
    (mark : Bool) : decodeText (marked mark (encodeText s)) = some s := by
  unfold decodeText
  cases mark with
  | true =>
    have htake : (marked true (encodeText s)).take 3 = byteOrderMark := rfl
    rw [if_pos htake]
    exact utf8?_eq_some.mpr rfl
  | false =>
    have htake : (marked false (encodeText s)).take 3 ≠ byteOrderMark := hs
    rw [if_neg htake]
    exact utf8?_eq_some.mpr rfl

/-- One byte a character. -/
def Ascii7 (cs : List Char) : Prop := ∀ c ∈ cs, c.toNat < 128

theorem encodeText_ascii {s : String} (hs : Ascii7 s.toList) :
    encodeText s = s.toList.map fun c => UInt8.ofNat c.toNat := by
  have hchar : ∀ c : Char, c.toNat < 128 → String.utf8EncodeChar c = [UInt8.ofNat c.toNat] := by
    intro c hc
    have hval : c.val.toNat ≤ 127 := by
      have : c.val.toNat < 128 := hc
      omega
    unfold String.utf8EncodeChar
    dsimp only
    rw [if_pos hval]
    rfl
  have hlist : ∀ cs : List Char, Ascii7 cs →
      cs.flatMap String.utf8EncodeChar = cs.map fun c => UInt8.ofNat c.toNat := by
    intro cs
    induction cs with
    | nil =>
      intro _
      rfl
    | cons c cs ih =>
      intro hcs
      rw [List.flatMap_cons, hchar c (hcs c List.mem_cons_self),
        ih fun d hd => hcs d (List.mem_cons_of_mem _ hd)]
      rfl
  exact hlist s.toList hs

/-- Text of one byte a character does not look like a byte order mark. -/
theorem take_ne_mark {s : String} (hs : Ascii7 s.toList) : (encodeText s).take 3 ≠ byteOrderMark := by
  intro h
  rw [encodeText_ascii hs] at h
  cases hl : s.toList with
  | nil =>
    rw [hl] at h
    cases h
  | cons c cs =>
    have hc := hs c (by rw [hl]; exact List.mem_cons_self)
    rw [hl] at h
    injection h with hhead _
    have hbyte : UInt8.ofNat c.toNat = 0xEF := hhead
    have hmod : c.toNat % 256 = 0xEF := congrArg UInt8.toNat hbyte
    omega

/-! ## §2. The order of JavaScript strings. -/

/-- The code units of one character. -/
def utf16Char (c : Char) : List Nat :=
  if c.toNat < 0x10000 then [c.toNat]
  else [0xD800 + (c.toNat - 0x10000) / 0x400, 0xDC00 + (c.toNat - 0x10000) % 0x400]

def utf16 (text : String) : List Nat := text.toList.flatMap utf16Char

/-- `a < b`. -/
def textLt (a b : String) : Bool := decide (utf16 a < utf16 b)

/-! ## §3. Decimals. -/

/-- `/^(0|[1-9][0-9]*)$/`, and the number it spells. -/
def naturalText (cs : List Char) : Option Nat :=
  if cs = ['0'] ∨ (cs ≠ [] ∧ cs.head? ≠ some '0' ∧ cs.all Char.isDigit = true) then
    some (Nat.ofDigitChars 10 cs 0)
  else none

theorem isDigit_toNat {c : Char} (h : c.isDigit = true) : 48 ≤ c.toNat ∧ c.toNat ≤ 57 := by
  simp only [Char.isDigit, Bool.and_eq_true, decide_eq_true_eq, ge_iff_le,
    UInt32.le_iff_toNat_le] at h
  exact h

theorem digitChar_sub {c : Char} (h : c.isDigit = true) : (c.toNat - 48).digitChar = c := by
  have hr := isDigit_toNat h
  apply Char.toNat_inj.mp
  rw [Nat.toNat_digitChar_of_lt_ten (by omega)]
  omega

theorem head_append {α : Type} {a b : List α} (ha : a ≠ []) : (a ++ b).head? = a.head? := by
  cases a with
  | nil => exact absurd rfl ha
  | cons x a => rfl

/-- Digits that do not start with a zero are those of the number they spell. -/
theorem toDigits_ofDigitChars {cs : List Char} : cs ≠ [] → cs.head? ≠ some '0' →
    cs.all Char.isDigit = true →
    0 < Nat.ofDigitChars 10 cs 0 ∧ Nat.toDigits 10 (Nat.ofDigitChars 10 cs 0) = cs := by
  induction cs using List.reverseRecOn with
  | nil =>
    intro hne
    exact absurd rfl hne
  | append_singleton cs c ih =>
    intro _ hhead hall
    rw [List.all_append, Bool.and_eq_true] at hall
    have hc : c.isDigit = true := by simpa using hall.2
    have hr := isDigit_toNat hc
    have hval : Nat.ofDigitChars 10 (cs ++ [c]) 0 =
        10 * Nat.ofDigitChars 10 cs 0 + (c.toNat - 48) := by
      rw [Nat.ofDigitChars_append, Nat.ofDigitChars_cons, Nat.ofDigitChars_nil]
      rfl
    rw [hval]
    by_cases hnil : cs = []
    · subst hnil
      have hc0 : c ≠ '0' := by simpa using hhead
      have hpos : 0 < c.toNat - 48 := by
        by_contra hle
        have h48 : c.toNat = 48 := by omega
        exact hc0 (Char.toNat_inj.mp h48)
      rw [Nat.ofDigitChars_nil, Nat.mul_zero, Nat.zero_add]
      refine ⟨hpos, ?_⟩
      rw [Nat.toDigits_of_lt_base (by omega), digitChar_sub hc]
      rfl
    · have hhead' : cs.head? ≠ some '0' := by
        rwa [head_append hnil] at hhead
      obtain ⟨hpos, hdigits⟩ := ih hnil hhead' hall.1
      refine ⟨by omega, ?_⟩
      rw [← Nat.toDigits_append_toDigits (by decide) hpos (by omega), hdigits,
        Nat.toDigits_of_lt_base (by omega), digitChar_sub hc]

theorem head_toDigits {n : Nat} (hn : 0 < n) : (Nat.toDigits 10 n).head? ≠ some '0' := by
  induction n using Nat.strongRecOn with
  | ind n ih =>
    by_cases hlt : n < 10
    · rw [Nat.toDigits_of_lt_base hlt]
      have hall : ∀ m : Fin 10, 0 < m.val → m.val.digitChar ≠ '0' := by decide
      intro h
      exact hall ⟨n, hlt⟩ hn (by simpa using h)
    · rw [Nat.toDigits_of_base_le (by decide) (by omega), head_append Nat.toDigits_ne_nil]
      exact ih (n / 10) (by omega) (by omega)

theorem naturalText_eq_some {cs : List Char} {n : Nat} :
    naturalText cs = some n ↔ cs = Nat.toDigits 10 n := by
  unfold naturalText
  constructor
  · intro h
    split at h
    next hcs =>
      obtain rfl := Option.some.inj h
      rcases hcs with rfl | ⟨hne, hhead, hall⟩
      · rfl
      · exact (toDigits_ofDigitChars hne hhead hall).2.symm
    · cases h
  · rintro rfl
    have hcs : Nat.toDigits 10 n = ['0'] ∨ (Nat.toDigits 10 n ≠ [] ∧
        (Nat.toDigits 10 n).head? ≠ some '0' ∧ (Nat.toDigits 10 n).all Char.isDigit = true) := by
      by_cases hn : n = 0
      · left
        rw [hn]
        rfl
      · right
        refine ⟨Nat.toDigits_ne_nil, head_toDigits (by omega), ?_⟩
        rw [List.all_eq_true]
        intro c hc
        exact Nat.isDigit_of_mem_toDigits (by decide) (by decide) hc
    rw [if_pos hcs, Nat.ofDigitChars_ten_toDigits]

/-- `/^(0|-?[1-9][0-9]*)$/` where a sign is allowed, and the number it spells. -/
def integerText (negative : Bool) (cs : List Char) : Option Int :=
  match negative, cs with
  | true, '-' :: cs => (naturalText cs).bind fun n => if n = 0 then none else some (-n)
  | _, cs => (naturalText cs).map Int.ofNat

end My98.Lib
