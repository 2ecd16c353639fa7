/-
  My98.Lib.Json — JSON values, hexadecimal text and decimal text.

  `Json` is what a JSON parser returns.  A number keeps the one distinction its readers make:
  written as an integer, or written with a fraction or an exponent (then with the integer its
  double equals, if it equals one).

  `hex` and `unhex` are inverse to each other on canonical text.  `decimal` is the usual text of
  a natural number; it is injective and ends where a byte that is not a digit follows, which is
  what makes length prefixes and decimal fields self-delimiting (`decimal_append_inj`,
  `netstring_append_inj`).
-/
import Mathlib.Algebra.Order.Ring.Nat
import Mathlib.Data.List.Perm.Subperm
import Mathlib.Tactic.Common
import My98.Lib.Bytes

namespace My98.Lib

/-! ## §1. Values. -/

inductive Json where
  | null
  | bool (b : Bool)
  | int (n : Int)
  | float (rounded : Option Int)
  | str (s : String)
  | arr (items : List Json)
  | obj (fields : List (String × Json))

namespace Json

/-- The fields of an object; everything else has none. -/
def fields : Json → List (String × Json)
  | obj fs => fs
  | _ => []

def keys (v : Json) : List String := v.fields.map (·.1)

/-- The value under a key. -/
def get? (v : Json) (key : String) : Option Json :=
  (v.fields.find? fun f => f.1 = key).map (·.2)

/-- The string under a key, if there is one. -/
def text? (v : Json) (key : String) : Option String :=
  match v.get? key with
  | some (str s) => some s
  | _ => none

/-- Every key is among `ks` and every one of `ks` is a key. -/
def hasKeys (v : Json) (ks : List String) : Bool :=
  v.keys.all (fun k => decide (k ∈ ks)) && ks.all fun k => decide (k ∈ v.keys)

/-- Counting keys is enough where none occurs twice. -/
theorem hasKeys_eq_length {v : Json} {ks : List String} (hv : v.keys.Nodup) (hks : ks.Nodup) :
    v.hasKeys ks =
      (decide (v.keys.length = ks.length) && ks.all fun k => decide (k ∈ v.keys)) := by
  unfold hasKeys
  rw [Bool.eq_iff_iff]
  simp only [Bool.and_eq_true, List.all_eq_true, decide_eq_true_eq]
  constructor
  · rintro ⟨hsub, hsup⟩
    have hperm : v.keys.Perm ks :=
      (List.perm_ext_iff_of_nodup hv hks).mpr fun k => ⟨hsub k, hsup k⟩
    exact ⟨hperm.length_eq, hsup⟩
  · rintro ⟨hlen, hsup⟩
    have hperm : ks.Perm v.keys := (List.subperm_of_subset hks hsup).perm_of_length_le hlen.le
    exact ⟨fun k hk => hperm.mem_iff.mpr hk, hsup⟩

end Json

/-! ## §2. Hexadecimal text. -/

/-- The digit of a number below sixteen. -/
def hexDigit (n : Nat) : Char := Nat.digitChar n

/-- The value of a lowercase hexadecimal digit. -/
def hexValue (c : Char) : Option Nat :=
  if '0' ≤ c ∧ c ≤ '9' then some (c.toNat - 48)
  else if 'a' ≤ c ∧ c ≤ 'f' then some (c.toNat - 87)
  else none

def hex (b : Bytes) : String :=
  String.ofList (b.flatMap fun x => [hexDigit (x.toNat / 16), hexDigit (x.toNat % 16)])

/-- Two digits a byte. -/
def unhexPairs : List Char → Option Bytes
  | [] => some []
  | a :: b :: rest =>
    match hexValue a, hexValue b, unhexPairs rest with
    | some x, some y, some bytes => some (UInt8.ofNat (16 * x + y) :: bytes)
    | _, _, _ => none
  | [_] => none

/-- Exactly `length` bytes of lowercase hexadecimal text. -/
def unhex (text : String) (length : Nat) : Option Bytes :=
  if text.length = 2 * length then unhexPairs text.toList else none

theorem hexValue_digit {n : Nat} (h : n < 16) : hexValue (hexDigit n) = some n := by
  have hall : ∀ m : Fin 16, hexValue (hexDigit m) = some m.val := by decide
  exact hall ⟨n, h⟩

theorem hexDigit_value {c : Char} {n : Nat} (h : hexValue c = some n) :
    n < 16 ∧ hexDigit n = c := by
  unfold hexValue at h
  simp only [Char.le_def, UInt32.le_iff_toNat_le] at h
  split at h
  next hc =>
    obtain rfl := Option.some.inj h
    have hlo : 48 ≤ c.toNat := hc.1
    have hhi : c.toNat ≤ 57 := hc.2
    refine ⟨by omega, Char.toNat_inj.mp ?_⟩
    rw [hexDigit, Nat.toNat_digitChar_of_lt_ten (by omega)]
    omega
  next =>
    split at h
    next hc =>
      obtain rfl := Option.some.inj h
      have hlo : 97 ≤ c.toNat := hc.1
      have hhi : c.toNat ≤ 102 := hc.2
      refine ⟨by omega, Char.toNat_inj.mp ?_⟩
      have hall : ∀ m : Fin 16, 10 ≤ m.val → (hexDigit m).toNat = m.val + 87 := by decide
      rw [hall ⟨c.toNat - 87, by omega⟩ (by show 10 ≤ c.toNat - 87; omega)]
      show c.toNat - 87 + 87 = c.toNat
      omega
    · cases h

/-- Reading what was written. -/
theorem unhexPairs_hex (b : Bytes) :
    unhexPairs (b.flatMap fun x => [hexDigit (x.toNat / 16), hexDigit (x.toNat % 16)]) = some b := by
  induction b with
  | nil => rfl
  | cons x b ih =>
    have hx := x.toNat_lt
    have hbyte : UInt8.ofNat (16 * (x.toNat / 16) + x.toNat % 16) = x := by
      rw [Nat.div_add_mod]
      exact UInt8.ofNat_toNat
    simp only [List.flatMap_cons, List.cons_append, List.nil_append, unhexPairs]
    rw [hexValue_digit (by omega), hexValue_digit (by omega), ih]
    simp only [hbyte]

/-- What could be read was written so. -/
theorem hex_unhexPairs : ∀ (cs : List Char) (b : Bytes), unhexPairs cs = some b →
    (b.flatMap fun x => [hexDigit (x.toNat / 16), hexDigit (x.toNat % 16)]) = cs := by
  intro cs
  induction cs using unhexPairs.induct with
  | case1 =>
    intro b h
    obtain rfl := Option.some.inj h
    rfl
  | case2 a c rest x y bytes hrest hy hx ih =>
    intro b h
    simp only [unhexPairs, hx, hy, hrest, Option.some.injEq] at h
    subst h
    obtain ⟨hx16, hxd⟩ := hexDigit_value hx
    obtain ⟨hy16, hyd⟩ := hexDigit_value hy
    have hbyte : (UInt8.ofNat (16 * x + y)).toNat = 16 * x + y := by
      show (16 * x + y) % 256 = 16 * x + y
      omega
    have hdiv : (16 * x + y) / 16 = x := by omega
    have hmod : (16 * x + y) % 16 = y := by omega
    simp only [List.flatMap_cons, List.cons_append, List.nil_append, hbyte, hdiv, hmod, hxd, hyd,
      ih bytes hrest]
  | case3 a c rest hno =>
    intro b h
    simp only [unhexPairs] at h
    cases h
  | case4 a =>
    intro b h
    cases h

theorem length_hex (b : Bytes) : (hex b).length = 2 * b.length := by
  unfold hex
  rw [String.length_ofList]
  induction b with
  | nil => rfl
  | cons x b ih =>
    rw [List.flatMap_cons, List.length_append, ih]
    simp only [List.length_cons, List.length_nil]
    omega

theorem unhex_hex (b : Bytes) : unhex (hex b) b.length = some b := by
  unfold unhex
  rw [if_pos (length_hex b)]
  unfold hex
  rw [String.toList_ofList]
  exact unhexPairs_hex b

/-- **Canonical text.**  A byte string has one hexadecimal text. -/
theorem hex_unhex {text : String} {n : Nat} {b : Bytes} (h : unhex text n = some b) :
    hex b = text ∧ b.length = n := by
  unfold unhex at h
  split at h
  next hlen =>
    have htext : hex b = text := by
      unfold hex
      rw [hex_unhexPairs _ _ h, String.ofList_toList]
    refine ⟨htext, ?_⟩
    have := length_hex b
    rw [htext] at this
    omega
  · cases h

/-! ## §3. Decimal text. -/

/-- `str(n).encode()`. -/
def decimalText (n : Nat) : Bytes := (Nat.toDigits 10 n).map fun c => UInt8.ofNat c.toNat

def isDigit (b : UInt8) : Bool := 48 ≤ b.toNat && b.toNat ≤ 57

theorem digit_range {n : Nat} {c : Char} (h : c ∈ Nat.toDigits 10 n) :
    48 ≤ c.toNat ∧ c.toNat ≤ 57 := by
  have hd := Nat.isDigit_of_mem_toDigits (by decide) (by decide) h
  simp only [Char.isDigit, Bool.and_eq_true, decide_eq_true_eq, ge_iff_le,
    UInt32.le_iff_toNat_le] at hd
  exact hd

theorem isDigit_of_mem_decimal {n : Nat} {b : UInt8} (h : b ∈ decimalText n) : isDigit b = true := by
  obtain ⟨c, hc, rfl⟩ := List.mem_map.mp h
  have hr := digit_range hc
  have hb : (UInt8.ofNat c.toNat).toNat = c.toNat := by
    show c.toNat % 256 = c.toNat
    omega
  simp only [isDigit, hb, Bool.and_eq_true, decide_eq_true_eq]
  exact hr

theorem decimalText_ne_nil (n : Nat) : decimalText n ≠ [] := by
  unfold decimalText
  simp [Nat.toDigits_ne_nil]

theorem decimalText_injective {m n : Nat} (h : decimalText m = decimalText n) : m = n := by
  -- a digit can be read back from its byte
  have hback : ∀ k, (decimalText k).map (fun b => Char.ofNat b.toNat) = Nat.toDigits 10 k := by
    intro k
    unfold decimalText
    rw [List.map_map]
    refine (List.map_congr_left fun c hc => ?_).trans (List.map_id _)
    have hr := digit_range hc
    show Char.ofNat (c.toNat % 256) = c
    rw [Nat.mod_eq_of_lt (by omega)]
    exact Char.ofNat_toNat c
  rw [← Nat.ofDigitChars_ten_toDigits (n := m), ← hback, h, hback, Nat.ofDigitChars_ten_toDigits]

/-- Two texts whose letters are in `p`, each ended by a letter that is not. -/
theorem append_cons_inj {α : Type} {p : α → Bool} {a b r r' : List α} {x y : α}
    (ha : ∀ c ∈ a, p c = true) (hb : ∀ c ∈ b, p c = true) (hx : p x = false) (hy : p y = false)
    (h : a ++ x :: r = b ++ y :: r') : a = b ∧ x = y ∧ r = r' := by
  induction a generalizing b with
  | nil =>
    cases b with
    | nil =>
      injection h with hxy hr
      exact ⟨rfl, hxy, hr⟩
    | cons c b =>
      injection h with hxc _
      rw [hxc, hb c List.mem_cons_self] at hx
      cases hx
  | cons c a ih =>
    cases b with
    | nil =>
      injection h with hcy _
      rw [← hcy, ha c List.mem_cons_self] at hy
      cases hy
    | cons d b =>
      injection h with hcd htail
      obtain ⟨hab, hrest⟩ := ih (fun e he => ha e (List.mem_cons_of_mem _ he))
        (fun e he => hb e (List.mem_cons_of_mem _ he)) htail
      exact ⟨by rw [hcd, hab], hrest⟩

/-- A decimal field ends at the first byte that is not a digit. -/
theorem decimal_append_inj {m n : Nat} {x y : UInt8} {r r' : Bytes} (hx : isDigit x = false)
    (hy : isDigit y = false) (h : decimalText m ++ x :: r = decimalText n ++ y :: r') :
    m = n ∧ x = y ∧ r = r' := by
  obtain ⟨htext, hrest⟩ := append_cons_inj (fun _ => isDigit_of_mem_decimal)
    (fun _ => isDigit_of_mem_decimal) hx hy h
  exact ⟨decimalText_injective htext, hrest⟩

/-! ## §4. Length-prefixed strings. -/

/-- A string as `length:bytes`. -/
def netstring (b : Bytes) : Bytes := decimalText b.length ++ 58 :: b

/-- A length-prefixed string ends where it says. -/
theorem netstring_append_inj {a b r r' : Bytes} (h : netstring a ++ r = netstring b ++ r') :
    a = b ∧ r = r' := by
  unfold netstring at h
  rw [List.append_assoc, List.append_assoc, List.cons_append, List.cons_append] at h
  obtain ⟨hlen, -, hrest⟩ := decimal_append_inj (by decide) (by decide) h
  exact List.append_inj hrest hlen

/-- A list of length-prefixed strings, ended by a byte that starts none of them. -/
theorem netstrings_inj {xs ys : List Bytes} {x : UInt8} {r r' : Bytes} (hx : isDigit x = false)
    (h : (xs.map netstring).flatten ++ x :: r = (ys.map netstring).flatten ++ x :: r') :
    xs = ys ∧ r = r' := by
  have hstart : ∀ (b : Bytes) (rest rest' : Bytes), netstring b ++ rest ≠ x :: rest' := by
    intro b rest rest' heq
    have hne := decimalText_ne_nil b.length
    cases ht : decimalText b.length with
    | nil => exact hne ht
    | cons d ds =>
      rw [netstring, ht] at heq
      injection heq with hd _
      have hdigit := isDigit_of_mem_decimal (n := b.length) (b := d) (by rw [ht]; exact List.mem_cons_self)
      rw [hd, hx] at hdigit
      cases hdigit
  induction xs generalizing ys with
  | nil =>
    cases ys with
    | nil =>
      injection h with _ hr
      exact ⟨rfl, hr⟩
    | cons y ys =>
      rw [List.map_cons, List.flatten_cons, List.append_assoc] at h
      exact absurd h.symm (hstart y _ _)
  | cons b xs ih =>
    rw [List.map_cons, List.flatten_cons, List.append_assoc] at h
    cases ys with
    | nil => exact absurd h (hstart b _ _)
    | cons y ys =>
      rw [List.map_cons, List.flatten_cons, List.append_assoc] at h
      obtain ⟨rfl, htail⟩ := netstring_append_inj h
      obtain ⟨rfl, hr⟩ := ih htail
      exact ⟨rfl, hr⟩

end My98.Lib
