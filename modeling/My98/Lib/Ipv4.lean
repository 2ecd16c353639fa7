/-
  My98.Lib.Ipv4 — addresses as 32-bit numbers, and blocks of them by their first bits.

  A block `x.y.z.0/n` is a number and how many of its first bits count.  Whether it has an address
  is decided by the first octets of both: all of those that `n` covers, and the high bits of the
  one that it ends in.
-/
import Mathlib.Algebra.Order.Ring.Nat
import Mathlib.Tactic.Common

namespace My98.Lib

/-- `a.b.c.d`. -/
def dotted (a b c d : Nat) : Nat := ((a * 256 + b) * 256 + c) * 256 + d

/-- `base/length`. -/
structure Cidr where
  base : Nat
  length : Nat
  deriving DecidableEq

/-- The address starts with the bits of the block. -/
def Cidr.Contains (block : Cidr) (address : Nat) : Prop :=
  address / 2 ^ (32 - block.length) = block.base / 2 ^ (32 - block.length)

instance (block : Cidr) (address : Nat) : Decidable (block.Contains address) :=
  inferInstanceAs (Decidable (_ = _))

section Octets

variable {a b c d x y z w : Nat}

theorem dotted_inj (hb : b < 256) (hc : c < 256) (hd : d < 256) (hy : y < 256) (hz : z < 256)
    (hw : w < 256) : dotted a b c d = dotted x y z w ↔ a = x ∧ b = y ∧ c = z ∧ d = w := by
  unfold dotted
  omega

/-- A block that ends in the first octet. -/
theorem contains_first {n : Nat} (hn : n ≤ 8) (hb : b < 256) (hc : c < 256) (hd : d < 256)
    (hy : y < 256) (hz : z < 256) (hw : w < 256) :
    Cidr.Contains ⟨dotted x y z w, n⟩ (dotted a b c d) ↔ a / 2 ^ (8 - n) = x / 2 ^ (8 - n) := by
  unfold Cidr.Contains dotted
  have hpow : 2 ^ (32 - n) = 2 ^ 24 * 2 ^ (8 - n) := by
    rw [← Nat.pow_add]
    congr 1
    omega
  dsimp only
  rw [hpow, ← Nat.div_div_eq_div_mul, ← Nat.div_div_eq_div_mul,
    show (((a * 256 + b) * 256 + c) * 256 + d) / 2 ^ 24 = a by omega,
    show (((x * 256 + y) * 256 + z) * 256 + w) / 2 ^ 24 = x by omega]

/-- Equal up to the high bits of the last octet. -/
theorem div_pow_octet {n p q : Nat} (hn : n ≤ 8) (hb : b < 256) (hy : y < 256) :
    (p * 256 + b) / 2 ^ (8 - n) = (q * 256 + y) / 2 ^ (8 - n) ↔
      p = q ∧ b / 2 ^ (8 - n) = y / 2 ^ (8 - n) := by
  have hpow : 256 = 2 ^ n * 2 ^ (8 - n) := by
    rw [← Nat.pow_add, Nat.add_sub_cancel' hn]
  have hpos : 0 < 2 ^ (8 - n) := Nat.two_pow_pos _
  have hsplit : ∀ p b : Nat, (p * 256 + b) / 2 ^ (8 - n) = p * 2 ^ n + b / 2 ^ (8 - n) := by
    intro p b
    rw [hpow, ← Nat.mul_assoc, Nat.add_comm, Nat.add_mul_div_right _ _ hpos, Nat.add_comm]
  have hlow : ∀ b, b < 256 → b / 2 ^ (8 - n) < 2 ^ n := by
    intro b hb
    rw [hpow] at hb
    exact Nat.div_lt_of_lt_mul (by rwa [Nat.mul_comm])
  have hb' := hlow b hb
  have hy' := hlow y hy
  rw [hsplit, hsplit]
  constructor
  · intro h
    have hmod : (p * 2 ^ n + b / 2 ^ (8 - n)) % 2 ^ n = (q * 2 ^ n + y / 2 ^ (8 - n)) % 2 ^ n := by
      rw [h]
    rw [Nat.mul_add_mod_of_lt hb', Nat.mul_add_mod_of_lt hy'] at hmod
    refine ⟨?_, hmod⟩
    rw [hmod] at h
    exact Nat.eq_of_mul_eq_mul_right (Nat.two_pow_pos n) (Nat.add_right_cancel h)
  · rintro ⟨rfl, h⟩
    rw [h]

/-- A block that ends in the second octet. -/
theorem contains_second {n : Nat} (hn : n ≤ 8) (hb : b < 256) (hc : c < 256) (hd : d < 256)
    (hy : y < 256) (hz : z < 256) (hw : w < 256) :
    Cidr.Contains ⟨dotted x y z w, 8 + n⟩ (dotted a b c d) ↔
      a = x ∧ b / 2 ^ (8 - n) = y / 2 ^ (8 - n) := by
  have hpow : 2 ^ (32 - (8 + n)) = 2 ^ 16 * 2 ^ (8 - n) := by
    rw [← Nat.pow_add]
    congr 1
    omega
  unfold Cidr.Contains dotted
  dsimp only
  rw [hpow, ← Nat.div_div_eq_div_mul, ← Nat.div_div_eq_div_mul,
    show (((a * 256 + b) * 256 + c) * 256 + d) / 2 ^ 16 = a * 256 + b by omega,
    show (((x * 256 + y) * 256 + z) * 256 + w) / 2 ^ 16 = x * 256 + y by omega, div_pow_octet hn hb hy]

/-- A block that ends in the third octet. -/
theorem contains_third {n : Nat} (hn : n ≤ 8) (hb : b < 256) (hc : c < 256) (hd : d < 256)
    (hy : y < 256) (hz : z < 256) (hw : w < 256) :
    Cidr.Contains ⟨dotted x y z w, 16 + n⟩ (dotted a b c d) ↔
      a = x ∧ b = y ∧ c / 2 ^ (8 - n) = z / 2 ^ (8 - n) := by
  have hpow : 2 ^ (32 - (16 + n)) = 2 ^ 8 * 2 ^ (8 - n) := by
    rw [← Nat.pow_add]
    congr 1
    omega
  unfold Cidr.Contains dotted
  dsimp only
  rw [hpow, ← Nat.div_div_eq_div_mul, ← Nat.div_div_eq_div_mul,
    show (((a * 256 + b) * 256 + c) * 256 + d) / 2 ^ 8 = (a * 256 + b) * 256 + c by omega,
    show (((x * 256 + y) * 256 + z) * 256 + w) / 2 ^ 8 = (x * 256 + y) * 256 + z by omega,
    div_pow_octet hn hc hz]
  constructor
  · rintro ⟨hab, hcz⟩
    exact ⟨by omega, by omega, hcz⟩
  · rintro ⟨rfl, rfl, hcz⟩
    exact ⟨rfl, hcz⟩

end Octets

end My98.Lib
