/-
  My98.Lib.Bencode — bencoded values and their canonical form.

  A dictionary is listed by its keys in raw byte order, each once: that is the finite map itself,
  and `encode` of it is its one canonical spelling.  An encoding ends where it says
  (`encode_append_inj`), so a value can be read off the front of any input.
-/
import Mathlib.Algebra.Order.Ring.Nat
import Mathlib.Tactic.Common
import My98.Lib.Json

namespace My98.Lib

/-! ## §1. Values. -/

inductive Ben where
  | int (n : Int)
  | str (b : Bytes)
  | list (items : List Ben)
  | dict (entries : List (Bytes × Ben))

namespace Ben

/-- The text of an integer. -/
def intText (n : Int) : Bytes := if n < 0 then 45 :: decimalText n.natAbs else decimalText n.natAbs

mutual

def encode : Ben → Bytes
  | int n => 105 :: intText n ++ [101]
  | str b => netstring b
  | list items => 108 :: encodeItems items ++ [101]
  | dict entries => 100 :: encodeEntries entries ++ [101]

def encodeItems : List Ben → Bytes
  | [] => []
  | item :: items => encode item ++ encodeItems items

def encodeEntries : List (Bytes × Ben) → Bytes
  | [] => []
  | (key, value) :: entries => netstring key ++ encode value ++ encodeEntries entries

end

/-- Keys in raw byte order, each once, at every level. -/
inductive Canonical : Ben → Prop where
  | int (n : Int) : Canonical (int n)
  | str (b : Bytes) : Canonical (str b)
  | list {items : List Ben} (h : ∀ item ∈ items, Canonical item) : Canonical (list items)
  | dict {entries : List (Bytes × Ben)} (sorted : entries.Pairwise fun a b => a.1 < b.1)
      (h : ∀ entry ∈ entries, Canonical entry.2) : Canonical (dict entries)

/-- `value.get(key)`. -/
def get? : Ben → Bytes → Option Ben
  | dict entries, key => (entries.find? fun e => e.1 = key).map (·.2)
  | _, _ => none

def keys : Ben → List Bytes
  | dict entries => entries.map (·.1)
  | _ => []

/-! ## §2. Sizes. -/

mutual

/-- The values inside, keys counted. -/
def nodes : Ben → Nat
  | int _ => 1
  | str _ => 1
  | list items => nodesItems items + 1
  | dict entries => nodesEntries entries + 1

def nodesItems : List Ben → Nat
  | [] => 0
  | item :: items => nodes item + nodesItems items

def nodesEntries : List (Bytes × Ben) → Nat
  | [] => 0
  | (_, value) :: entries => nodes value + 1 + nodesEntries entries

end

mutual

/-- How deep values are nested. -/
def height : Ben → Nat
  | int _ => 0
  | str _ => 0
  | list items => heightItems items
  | dict entries => heightEntries entries

def heightItems : List Ben → Nat
  | [] => 0
  | item :: items => max (height item + 1) (heightItems items)

def heightEntries : List (Bytes × Ben) → Nat
  | [] => 0
  | (_, value) :: entries => max (height value + 1) (heightEntries entries)

end

/-- Every integer inside is one of these. -/
inductive Ints (p : Int → Prop) : Ben → Prop where
  | int {n : Int} (h : p n) : Ints p (int n)
  | str (b : Bytes) : Ints p (str b)
  | list {items : List Ben} (h : ∀ item ∈ items, Ints p item) : Ints p (list items)
  | dict {entries : List (Bytes × Ben)} (h : ∀ entry ∈ entries, Ints p entry.2) :
      Ints p (dict entries)

/-! ## §3. Encodings end where they say. -/

theorem intText_append_inj {m n : Int} {r r' : Bytes}
    (h : Ben.intText m ++ 101 :: r = Ben.intText n ++ 101 :: r') : m = n ∧ r = r' := by
  have hsign : ∀ (k : Nat) (s s' : Bytes), decimalText k ++ s ≠ 45 :: s' := by
    intro k s s' heq
    cases ht : decimalText k with
    | nil => exact decimalText_ne_nil k ht
    | cons d ds =>
      rw [ht] at heq
      obtain ⟨rfl, -⟩ := List.cons.inj heq
      have hdigit := isDigit_of_mem_decimal (n := k) (b := 45) (by rw [ht]; exact List.mem_cons_self)
      cases hdigit
  unfold Ben.intText at h
  split at h
  next hm =>
    split at h
    next hn =>
      obtain ⟨habs, -, hrest⟩ := decimal_append_inj (by decide) (by decide) (List.cons.inj h).2
      exact ⟨by omega, hrest⟩
    next => exact absurd h.symm (hsign _ _ _)
  next hm =>
    split at h
    next => exact absurd h (hsign _ _ _)
    next hn =>
      obtain ⟨habs, -, hrest⟩ := decimal_append_inj (by decide) (by decide) h
      exact ⟨by omega, hrest⟩

theorem netstring_ne {x : UInt8} (hx : isDigit x = false) (b r r' : Bytes) :
    netstring b ++ r ≠ x :: r' := by
  intro h
  cases ht : decimalText b.length with
  | nil => exact decimalText_ne_nil _ ht
  | cons d ds =>
    rw [netstring, ht] at h
    obtain ⟨rfl, -⟩ := List.cons.inj h
    rw [isDigit_of_mem_decimal (n := b.length) (by rw [ht]; exact List.mem_cons_self)] at hx
    cases hx

/-- No value starts with the byte that ends a list. -/
theorem encode_ne_end (v : Ben) (r r' : Bytes) : v.encode ++ r ≠ 101 :: r' := by
  intro h
  cases v with
  | int n =>
    rw [encode] at h
    exact absurd (List.cons.inj h).1 (by decide)
  | str b =>
    rw [encode] at h
    exact netstring_ne (by decide) _ _ _ h
  | list items =>
    rw [encode] at h
    exact absurd (List.cons.inj h).1 (by decide)
  | dict entries =>
    rw [encode] at h
    exact absurd (List.cons.inj h).1 (by decide)

mutual

/-- **An encoding ends where it says**, and spells one value. -/
theorem encode_append_inj : ∀ (v w : Ben) {r r' : Bytes}, v.encode ++ r = w.encode ++ r' →
    v = w ∧ r = r'
  | int m, int n, r, r', h => by
    simp only [encode, List.cons_append, List.append_assoc, List.nil_append] at h
    obtain ⟨rfl, hrest⟩ := intText_append_inj (List.cons.inj h).2
    exact ⟨rfl, hrest⟩
  | str a, str b, r, r', h => by
    rw [encode, encode] at h
    obtain ⟨rfl, hrest⟩ := netstring_append_inj h
    exact ⟨rfl, hrest⟩
  | list xs, list ys, r, r', h => by
    simp only [encode, List.cons_append, List.append_assoc, List.nil_append] at h
    obtain ⟨rfl, hrest⟩ := encodeItems_append_inj xs ys (List.cons.inj h).2
    exact ⟨rfl, hrest⟩
  | dict xs, dict ys, r, r', h => by
    simp only [encode, List.cons_append, List.append_assoc, List.nil_append] at h
    obtain ⟨rfl, hrest⟩ := encodeEntries_append_inj xs ys (List.cons.inj h).2
    exact ⟨rfl, hrest⟩
  -- two kinds of value start with different bytes
  | int _, list _, _, _, h => by
    rw [encode, encode] at h
    exact absurd (List.cons.inj h).1 (by decide)
  | int _, dict _, _, _, h => by
    rw [encode, encode] at h
    exact absurd (List.cons.inj h).1 (by decide)
  | list _, int _, _, _, h => by
    rw [encode, encode] at h
    exact absurd (List.cons.inj h).1 (by decide)
  | list _, dict _, _, _, h => by
    rw [encode, encode] at h
    exact absurd (List.cons.inj h).1 (by decide)
  | dict _, int _, _, _, h => by
    rw [encode, encode] at h
    exact absurd (List.cons.inj h).1 (by decide)
  | dict _, list _, _, _, h => by
    rw [encode, encode] at h
    exact absurd (List.cons.inj h).1 (by decide)
  | str _, int _, _, _, h => by
    rw [encode, encode] at h
    exact absurd h (netstring_ne (by decide) _ _ _)
  | str _, list _, _, _, h => by
    rw [encode, encode] at h
    exact absurd h (netstring_ne (by decide) _ _ _)
  | str _, dict _, _, _, h => by
    rw [encode, encode] at h
    exact absurd h (netstring_ne (by decide) _ _ _)
  | int _, str _, _, _, h => by
    rw [encode, encode] at h
    exact absurd h.symm (netstring_ne (by decide) _ _ _)
  | list _, str _, _, _, h => by
    rw [encode, encode] at h
    exact absurd h.symm (netstring_ne (by decide) _ _ _)
  | dict _, str _, _, _, h => by
    rw [encode, encode] at h
    exact absurd h.symm (netstring_ne (by decide) _ _ _)

theorem encodeItems_append_inj : ∀ (xs ys : List Ben) {r r' : Bytes},
    encodeItems xs ++ 101 :: r = encodeItems ys ++ 101 :: r' → xs = ys ∧ r = r'
  | [], [], _, _, h => ⟨rfl, (List.cons.inj h).2⟩
  | [], y :: ys, r, r', h => by
    simp only [encodeItems, List.append_assoc, List.nil_append] at h
    exact absurd h.symm (encode_ne_end y _ _)
  | x :: xs, [], r, r', h => by
    simp only [encodeItems, List.append_assoc, List.nil_append] at h
    exact absurd h (encode_ne_end x _ _)
  | x :: xs, y :: ys, r, r', h => by
    simp only [encodeItems, List.append_assoc] at h
    obtain ⟨rfl, htail⟩ := encode_append_inj x y h
    obtain ⟨rfl, hrest⟩ := encodeItems_append_inj xs ys htail
    exact ⟨rfl, hrest⟩

theorem encodeEntries_append_inj : ∀ (xs ys : List (Bytes × Ben)) {r r' : Bytes},
    encodeEntries xs ++ 101 :: r = encodeEntries ys ++ 101 :: r' → xs = ys ∧ r = r'
  | [], [], _, _, h => ⟨rfl, (List.cons.inj h).2⟩
  | [], (key, v) :: ys, r, r', h => by
    simp only [encodeEntries, List.append_assoc, List.nil_append] at h
    exact absurd h.symm (netstring_ne (by decide) _ _ _)
  | (key, v) :: xs, [], r, r', h => by
    simp only [encodeEntries, List.append_assoc, List.nil_append] at h
    exact absurd h (netstring_ne (by decide) _ _ _)
  | (key, v) :: xs, (key', w) :: ys, r, r', h => by
    simp only [encodeEntries, List.append_assoc] at h
    obtain ⟨rfl, hvalue⟩ := netstring_append_inj h
    obtain ⟨rfl, htail⟩ := encode_append_inj v w hvalue
    obtain ⟨rfl, hrest⟩ := encodeEntries_append_inj xs ys htail
    exact ⟨rfl, hrest⟩

end

theorem encode_injective {v w : Ben} (h : v.encode = w.encode) : v = w := by
  have happend : v.encode ++ [] = w.encode ++ [] := by rw [h]
  exact (encode_append_inj v w happend).1

theorem encodeEntries_injective {xs ys : List (Bytes × Ben)}
    (h : encodeEntries xs = encodeEntries ys) : xs = ys := by
  have happend : encodeEntries xs ++ [101] = encodeEntries ys ++ [101] := by rw [h]
  exact (encodeEntries_append_inj xs ys happend).1

end Ben

/-- Two lists in one strict order with the same members are the same list. -/
theorem eq_of_sorted {α : Type} {r : α → α → Prop} (hirrefl : ∀ a, ¬r a a)
    (htrans : ∀ a b d, r a b → r b d → r a d) {xs ys : List α} (hx : xs.Pairwise r)
    (hy : ys.Pairwise r) (h : ∀ a, a ∈ xs ↔ a ∈ ys) : xs = ys := by
  have hne : ∀ {a b : α}, r a b → a ≠ b := by
    rintro a b hab rfl
    exact hirrefl a hab
  have hperm : xs.Perm ys := (List.perm_ext_iff_of_nodup (hx.imp hne) (hy.imp hne)).mpr h
  refine hperm.eq_of_pairwise ?_ hx hy
  intro a b _ _ hab hba
  exact absurd (htrans a b a hab hba) (hirrefl a)

end My98.Lib
