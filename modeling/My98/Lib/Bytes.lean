/-
  My98.Lib.Bytes — ranges of a buffer and little-endian integers.

  `slice b off n` is the range `b[off..off+n]`, `splice b off new` is `b` after `new`
  was copied over it at `off`, and `leBytes`/`leNat` are the fixed-width little-endian
  encodings.  Every fact about a range is given POSITION BY POSITION (`getElem?`), so
  that two buffers are compared with one `List.ext_getElem?` and arithmetic.
-/
import Mathlib.Algebra.Order.Ring.Nat
import Mathlib.Tactic.Common

namespace My98.Lib

abbrev Bytes := List UInt8

/-- Membership among byte strings, decided once for every table of hashes and keys. -/
instance decidableMemBytes (x : Bytes) (xs : List Bytes) : Decidable (x ∈ xs) := inferInstance

variable {α : Type}

/-! ## §1. Ranges. -/

/-- The range `b[off..off+n]`. -/
def slice (b : List α) (off n : Nat) : List α := (b.drop off).take n

/-- `b` with `new` copied over it from position `off` on. -/
def splice (b : List α) (off : Nat) (new : List α) : List α :=
  b.take off ++ new ++ b.drop (off + new.length)

theorem getElem?_slice (b : List α) (off n i : Nat) :
    (slice b off n)[i]? = if i < n then b[off + i]? else none := by
  unfold slice
  rw [List.getElem?_take]
  split <;> simp_all [List.getElem?_drop]

@[simp] theorem length_slice (b : List α) (off n : Nat) :
    (slice b off n).length = min n (b.length - off) := by
  simp [slice]

theorem length_slice_of_le {b : List α} {off n : Nat} (h : off + n ≤ b.length) :
    (slice b off n).length = n := by
  rw [length_slice]; omega

theorem getElem?_splice (b new : List α) (off i : Nat) (h : off ≤ b.length) :
    (splice b off new)[i]?
      = if i < off then b[i]? else if i < off + new.length then new[i - off]? else b[i]? := by
  unfold splice
  have htake : (b.take off).length = off := by simp [h]
  rw [List.append_assoc]
  by_cases h1 : i < off
  · rw [List.getElem?_append_left (by omega), List.getElem?_take, if_pos h1, if_pos h1]
  · rw [List.getElem?_append_right (by omega), htake, if_neg h1]
    by_cases h2 : i < off + new.length
    · rw [List.getElem?_append_left (by omega), if_pos h2]
    · rw [List.getElem?_append_right (by omega), if_neg h2, List.getElem?_drop]
      congr 1
      omega

theorem length_splice {b new : List α} {off : Nat} (h : off + new.length ≤ b.length) :
    (splice b off new).length = b.length := by
  simp only [splice, List.length_append, List.length_take, List.length_drop]
  omega

@[simp] theorem splice_nil (b : List α) (off : Nat) : splice b off [] = b := by
  simp [splice]

@[simp] theorem slice_zero_length (b : List α) : slice b 0 b.length = b := by
  simp [slice]

theorem slice_self {b : List α} {n : Nat} (h : b.length = n) : slice b 0 n = b := by
  rw [← h, slice_zero_length]

theorem slice_append_slice (b : List α) (off m n : Nat) :
    slice b off m ++ slice b (off + m) n = slice b off (m + n) := by
  simp only [slice]
  rw [List.take_add, List.drop_drop]

theorem slice_slice {b : List α} {off n i m : Nat} (h : i + m ≤ n) :
    slice (slice b off n) i m = slice b (off + i) m := by
  refine List.ext_getElem? fun j => ?_
  simp only [getElem?_slice]
  by_cases hj : j < m
  · rw [if_pos hj, if_pos (show i + j < n by omega), if_pos hj, Nat.add_assoc]
  · rw [if_neg hj, if_neg hj]

/-- A range at the end of a left part is the range of the right part. -/
theorem slice_append_right {a b : List α} {off n : Nat} (h : a.length ≤ off) :
    slice (a ++ b) off n = slice b (off - a.length) n := by
  simp only [slice]
  rw [List.drop_append, List.drop_eq_nil_of_le h, List.nil_append]

theorem slice_append_left {a b : List α} {off n : Nat} (h : off + n ≤ a.length) :
    slice (a ++ b) off n = slice a off n := by
  simp only [slice]
  rw [List.drop_append_of_le_length (by omega), List.take_append_of_le_length (by simp; omega)]

/-! ## §2. Little-endian integers. -/

/-- The `k` low bytes of `n`, least significant first. -/
def leBytes : Nat → Nat → Bytes
  | 0, _ => []
  | k + 1, n => UInt8.ofNat n :: leBytes k (n / 256)

/-- The number a little-endian byte string spells. -/
def leNat : Bytes → Nat
  | [] => 0
  | b :: bs => b.toNat + 256 * leNat bs

@[simp] theorem length_leBytes (k : Nat) : ∀ n, (leBytes k n).length = k := by
  induction k with
  | zero => intro n; rfl
  | succ k ih => intro n; simp [leBytes, ih]

theorem leNat_leBytes (k : Nat) : ∀ n, n < 256 ^ k → leNat (leBytes k n) = n := by
  induction k with
  | zero =>
    intro n hn
    simp only [Nat.pow_zero, Nat.lt_one_iff] at hn
    subst hn
    rfl
  | succ k ih =>
    intro n hn
    have hdiv : n / 256 < 256 ^ k := by
      rw [Nat.pow_succ] at hn
      omega
    have hbyte : (UInt8.ofNat n).toNat = n % 256 := rfl
    simp only [leBytes, leNat, hbyte, ih _ hdiv]
    omega

/-- Every byte string of the right length is the encoding of the number it spells. -/
theorem leBytes_leNat : ∀ b : Bytes, leBytes b.length (leNat b) = b := by
  intro b
  induction b with
  | nil => rfl
  | cons x b ih =>
    have hx := x.toNat_lt
    have hlow : UInt8.ofNat (x.toNat + 256 * leNat b) = x := by
      refine UInt8.toNat_inj.mp ?_
      show (x.toNat + 256 * leNat b) % 256 = x.toNat
      omega
    have hhigh : (x.toNat + 256 * leNat b) / 256 = leNat b := by omega
    simp only [List.length_cons, leNat, leBytes, hlow, hhigh, ih]

end My98.Lib
