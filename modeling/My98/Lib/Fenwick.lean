/-
  My98.Lib.Fenwick — the best of a prefix, kept in a binary indexed tree.

  An item is put at a position and is written to the nodes `ascend size p`; the best item at a
  position of at most `q` is read from the nodes `descend q`.  What makes this right is ONE fact
  about the two walks: for `1 ≤ p ≤ q` they meet (`paths_meet`), since when the walk up from `p`
  would jump over `q` the walk down from `q` does not jump over `p`.  The blocks that the nodes
  stand for are never needed.

    • `Holds.insert`  — writing keeps what the tree stands for;
    • `Holds.best`    — reading returns an item of the prefix, and none is better.

  Only positions and a comparison are fixed; the items, their keys and the order are parameters.
-/
import Mathlib.Algebra.Order.Ring.Nat
import Mathlib.Data.Int.Bitwise
import Mathlib.Tactic.Common

namespace My98.Lib.Fenwick

/-! ## §1. The lowest set bit. -/

/-- `at & -at`, in two's complement. -/
def lowbit (i : Nat) : Nat := (Int.land i (-i)).toNat

theorem lowbit_succ (n : Nat) : lowbit (n + 1) = Nat.ldiff (n + 1) n := rfl

theorem ldiff_self (n : Nat) : Nat.ldiff n n = 0 := by
  apply Nat.eq_of_testBit_eq
  intro k
  rw [Nat.testBit_ldiff, Nat.zero_testBit]
  cases n.testBit k <;> rfl

/-- Twice a number has twice its lowest bit. -/
theorem lowbit_double {m : Nat} (hm : 0 < m) : lowbit (2 * m) = 2 * lowbit m := by
  obtain ⟨k, rfl⟩ : ∃ k, m = k + 1 := ⟨m - 1, by omega⟩
  have hstep : 2 * (k + 1) = (2 * k + 1) + 1 := by omega
  calc lowbit (2 * (k + 1)) = Nat.ldiff ((2 * k + 1) + 1) (2 * k + 1) := by
        rw [hstep, lowbit_succ]
    _ = Nat.ldiff (Nat.bit false (k + 1)) (Nat.bit true k) := by
        rw [Nat.bit_false_apply, Nat.bit_true_apply, ← hstep]
    _ = 2 * lowbit (k + 1) := by
        rw [Nat.ldiff_bit, Bool.false_and, Nat.bit_false_apply, lowbit_succ]

theorem lowbit_odd (m : Nat) : lowbit (2 * m + 1) = 1 := by
  calc lowbit (2 * m + 1) = Nat.ldiff (Nat.bit true m) (Nat.bit false m) := by
        rw [lowbit_succ, Nat.bit_true_apply, Nat.bit_false_apply]
    _ = 1 := by
        rw [Nat.ldiff_bit, ldiff_self]
        rfl

/-- **The lowest bit is a power of two that divides.** -/
theorem lowbit_pow {i : Nat} (hi : 0 < i) : ∃ s, lowbit i = 2 ^ s ∧ 2 ^ s ∣ i := by
  induction i using Nat.strong_induction_on with
  | _ i ih =>
    obtain ⟨m, hm⟩ := Nat.even_or_odd' i
    cases hm with
    | inl heven =>
      subst heven
      obtain ⟨s, hs, hd⟩ := ih m (by omega) (by omega)
      refine ⟨s + 1, ?_, ?_⟩
      · rw [lowbit_double (by omega), hs, Nat.pow_succ, Nat.mul_comm]
      · rw [Nat.pow_succ, Nat.mul_comm]
        exact Nat.mul_dvd_mul_left 2 hd
    | inr hodd =>
      subst hodd
      exact ⟨0, lowbit_odd m, one_dvd _⟩

theorem lowbit_pos {i : Nat} (hi : 0 < i) : 0 < lowbit i := by
  obtain ⟨s, hs, -⟩ := lowbit_pow hi
  rw [hs]
  exact Nat.two_pow_pos s

/-- Both low bits are powers of two, so the smaller divides both numbers and their distance. -/
theorem no_jump {p q : Nat} (hp : 0 < p) (hpq : p < q) (hover : q < p + lowbit p) :
    p ≤ q - lowbit q := by
  obtain ⟨s, hs, hsp⟩ := lowbit_pow hp
  obtain ⟨t, ht, htq⟩ := lowbit_pow (Nat.lt_trans hp hpq)
  rw [hs] at hover
  rw [ht]
  have hcases : t < s := by
    by_contra hle
    have hsq : 2 ^ s ∣ q := Nat.dvd_trans (Nat.pow_dvd_pow 2 (by omega)) htq
    have hgap : 2 ^ s ∣ q - p := Nat.dvd_sub hsq hsp
    have := Nat.le_of_dvd (by omega) hgap
    omega
  have htp : 2 ^ t ∣ p := Nat.dvd_trans (Nat.pow_dvd_pow 2 (by omega)) hsp
  have hgap : 2 ^ t ∣ q - p := Nat.dvd_sub htq htp
  have := Nat.le_of_dvd (by omega) hgap
  omega

/-! ## §2. The two walks. -/

/-- `for(at=p; at<size; at+=at&-at)`.  The loop of a position 0 would not end; none has it. -/
def ascend (size p : Nat) : List Nat :=
  if _h : 0 < p ∧ p < size then p :: ascend size (p + lowbit p) else []
termination_by size - p
decreasing_by
  have := lowbit_pos _h.1
  omega

/-- `for(at=q; at>0; at-=at&-at)`. -/
def descend (q : Nat) : List Nat :=
  if _h : 0 < q then q :: descend (q - lowbit q) else []
termination_by q
decreasing_by
  have := lowbit_pos _h
  omega

theorem ascend_of_lt {size p : Nat} (hp : 0 < p) (hsize : p < size) :
    ascend size p = p :: ascend size (p + lowbit p) := by
  rw [ascend, dif_pos ⟨hp, hsize⟩]

theorem descend_of_pos {q : Nat} (hq : 0 < q) : descend q = q :: descend (q - lowbit q) := by
  rw [descend, dif_pos hq]

theorem le_of_mem_ascend {size p a : Nat} (h : a ∈ ascend size p) : p ≤ a := by
  fun_induction ascend size p with
  | case1 p hp ih =>
    cases List.mem_cons.mp h with
    | inl hhere => omega
    | inr hlater =>
      have := ih hlater
      omega
  | case2 p hp => cases h

theorem le_of_mem_descend {q a : Nat} (h : a ∈ descend q) : a ≤ q := by
  fun_induction descend q with
  | case1 q hq ih =>
    cases List.mem_cons.mp h with
    | inl hhere => omega
    | inr hlater =>
      have := ih hlater
      omega
  | case2 q hq => cases h

/-- **The walks meet.**  Induction on the distance: at least one of them gets closer without
passing the other. -/
theorem paths_meet {size p q : Nat} (hp : 0 < p) (hpq : p ≤ q) (hq : q < size) :
    ∃ a, a ∈ ascend size p ∧ a ∈ descend q := by
  induction hd : q - p using Nat.strong_induction_on generalizing p q with
  | _ d ih =>
    rw [ascend_of_lt hp (by omega), descend_of_pos (by omega)]
    have hpbit := lowbit_pos hp
    have hqbit := lowbit_pos (Nat.lt_of_lt_of_le hp hpq)
    by_cases hsame : p = q
    · exact ⟨p, List.mem_cons_self, hsame ▸ List.mem_cons_self⟩
    · by_cases hover : q < p + lowbit p
      · have hkeep := no_jump hp (by omega) hover
        obtain ⟨a, hup, hdown⟩ := ih (q - lowbit q - p) (by omega) hp hkeep (by omega) rfl
        rw [ascend_of_lt hp (by omega)] at hup
        exact ⟨a, hup, List.mem_cons_of_mem _ hdown⟩
      · obtain ⟨a, hup, hdown⟩ :=
          ih (q - (p + lowbit p)) (by omega) (by omega) (by omega) hq rfl
        rw [descend_of_pos (by omega)] at hdown
        exact ⟨a, List.mem_cons_of_mem _ hup, hdown⟩

/-! ## §3. Cells. -/

/-- A typed array whose indices are never out of range: what it reads at each index. -/
structure Cells (α : Type) where
  read : Nat → α

namespace Cells

variable {α : Type}

/-- A new array. -/
def fill (a : α) : Cells α := ⟨fun _ => a⟩

def write (cells : Cells α) (i : Nat) (a : α) : Cells α :=
  ⟨fun j => if j = i then a else cells.read j⟩

@[simp] theorem read_fill (a : α) (i : Nat) : (fill a).read i = a := rfl

@[simp] theorem read_write_self (cells : Cells α) (i : Nat) (a : α) :
    (cells.write i a).read i = a := by
  simp [write]

theorem read_write_of_ne (cells : Cells α) {i j : Nat} (a : α) (h : j ≠ i) :
    (cells.write i a).read j = cells.read j := by
  simp [write, h]

end Cells

/-! ## §4. The tree. -/

section Tree

variable {ι M : Type} [LinearOrder M]

/-- Write `i` to the nodes above position `p` where it wins. -/
def insert (wins : ι → Option ι → Bool) (size : Nat) (tree : Cells (Option ι)) (p : Nat) (i : ι) :
    Cells (Option ι) :=
  (ascend size p).foldl
    (fun tree node => if wins i (tree.read node) then tree.write node (some i) else tree) tree

/-- One node of the walk down: keep the better of what was found and what it holds. -/
def pick (wins : ι → Option ι → Bool) (found held : Option ι) : Option ι :=
  match held with
  | none => found
  | some i => if wins i found then some i else found

/-- The best item at a position of at most `q`. -/
def best (wins : ι → Option ι → Bool) (tree : Cells (Option ι)) (q : Nat) : Option ι :=
  (descend q).foldl (fun found node => pick wins found (tree.read node)) none

/-- `wins i found` says that nothing is found yet or `i` has the smaller key. -/
def Compares (key : ι → M) (wins : ι → Option ι → Bool) : Prop :=
  (∀ i, wins i none = true) ∧ ∀ i b, wins i (some b) = true ↔ key i < key b

/-- The tree holds the items that were put: a node holds one from its own position or below, and
one that is as good as each item written to it. -/
structure Holds (key : ι → M) (size : Nat) (put : ι → Nat → Prop) (tree : Cells (Option ι)) :
    Prop where
  below : ∀ node i, tree.read node = some i → ∃ p, put i p ∧ p ≤ node
  good : ∀ i p, put i p → ∀ node ∈ ascend size p, ∃ b, tree.read node = some b ∧ key b ≤ key i

variable {key : ι → M} {wins : ι → Option ι → Bool} {size : Nat} {put : ι → Nat → Prop}
  {tree : Cells (Option ι)}

theorem Holds.congr {put' : ι → Nat → Prop} (h : Holds key size put tree)
    (heq : ∀ i p, put i p ↔ put' i p) : Holds key size put' tree where
  below := by
    intro node i hi
    obtain ⟨p, hput, hle⟩ := h.below node i hi
    exact ⟨p, (heq i p).mp hput, hle⟩
  good := fun i p hput => h.good i p ((heq i p).mpr hput)

/-- What writing along a walk leaves at a node. -/
theorem insert_walk (hwins : Compares key wins) (i : ι) (walk : List Nat) :
    ∀ (tree : Cells (Option ι)) (node : Nat),
      let after := walk.foldl
        (fun tree node => if wins i (tree.read node) then tree.write node (some i) else tree)
        tree
      (after.read node = tree.read node ∨ node ∈ walk ∧ after.read node = some i) ∧
      (∀ b, tree.read node = some b → ∃ b', after.read node = some b' ∧ key b' ≤ key b) ∧
      (node ∈ walk → ∃ b, after.read node = some b ∧ key b ≤ key i) := by
  induction walk with
  | nil => exact fun tree node => ⟨.inl rfl, fun b hb => ⟨b, hb, le_rfl⟩, fun h => by cases h⟩
  | cons first walk ih =>
    intro tree node
    rw [List.foldl_cons]
    -- what the first node of the walk becomes
    have hfirst : ∃ tree' : Cells (Option ι),
        (if wins i (tree.read first) then tree.write first (some i) else tree) = tree' ∧
        (tree'.read node = tree.read node ∨ node = first ∧ tree'.read node = some i) ∧
        (∀ b, tree.read node = some b → ∃ b', tree'.read node = some b' ∧ key b' ≤ key b) ∧
        (node = first → ∃ b, tree'.read node = some b ∧ key b ≤ key i) := by
      refine ⟨_, rfl, ?_⟩
      by_cases hw : wins i (tree.read first) = true
      · rw [if_pos hw]
        by_cases hn : node = first
        · subst hn
          rw [Cells.read_write_self]
          refine ⟨.inr ⟨rfl, rfl⟩, fun b hb => ⟨i, rfl, ?_⟩, fun _ => ⟨i, rfl, le_rfl⟩⟩
          rw [hb] at hw
          exact le_of_lt ((hwins.2 i b).mp hw)
        · rw [Cells.read_write_of_ne _ _ hn]
          exact ⟨.inl rfl, fun b hb => ⟨b, hb, le_rfl⟩, fun h => absurd h hn⟩
      · rw [if_neg hw]
        refine ⟨.inl rfl, fun b hb => ⟨b, hb, le_rfl⟩, fun hn => ?_⟩
        subst hn
        cases hheld : tree.read node with
        | none => exact absurd (hheld ▸ hwins.1 i) hw
        | some b =>
          rw [hheld] at hw
          exact ⟨b, rfl, not_lt.mp fun hlt => hw ((hwins.2 i b).mpr hlt)⟩
    obtain ⟨tree', heq, hkept, hbetter, hwritten⟩ := hfirst
    rw [heq]
    obtain ⟨hkept', hbetter', hwritten'⟩ := ih tree' node
    refine ⟨?_, ?_, ?_⟩
    · cases hkept' with
      | inl hsame =>
        cases hkept with
        | inl h => exact .inl (hsame.trans h)
        | inr h => exact .inr ⟨h.1 ▸ List.mem_cons_self, hsame.trans h.2⟩
      | inr h => exact .inr ⟨List.mem_cons_of_mem _ h.1, h.2⟩
    · intro b hb
      obtain ⟨b₁, hb₁, hle₁⟩ := hbetter b hb
      obtain ⟨b₂, hb₂, hle₂⟩ := hbetter' b₁ hb₁
      exact ⟨b₂, hb₂, hle₂.trans hle₁⟩
    · intro hmem
      cases List.mem_cons.mp hmem with
      | inl hhere =>
        obtain ⟨b₁, hb₁, hle₁⟩ := hwritten hhere
        obtain ⟨b₂, hb₂, hle₂⟩ := hbetter' b₁ hb₁
        exact ⟨b₂, hb₂, hle₂.trans hle₁⟩
      | inr hlater => exact hwritten' hlater

/-- **Writing keeps what the tree stands for.** -/
theorem Holds.insert (hwins : Compares key wins) (h : Holds key size put tree) (i : ι) (p : Nat) :
    Holds key size (fun i' p' => put i' p' ∨ i' = i ∧ p' = p)
      (Fenwick.insert wins size tree p i) where
  below := by
    intro node b hb
    have hwalk := (insert_walk hwins i (ascend size p) tree node).1
    cases hwalk with
    | inl hsame =>
      obtain ⟨p', hput, hle⟩ := h.below node b (hsame.symm.trans hb)
      exact ⟨p', .inl hput, hle⟩
    | inr hnew =>
      have hbi : b = i := Option.some.inj (hb.symm.trans hnew.2)
      exact ⟨p, .inr ⟨hbi, rfl⟩, le_of_mem_ascend hnew.1⟩
  good := by
    intro j p' hput node hnode
    have hwalk := insert_walk hwins i (ascend size p) tree node
    cases hput with
    | inl hold =>
      obtain ⟨b, hb, hle⟩ := h.good j p' hold node hnode
      obtain ⟨b', hb', hle'⟩ := hwalk.2.1 b hb
      exact ⟨b', hb', hle'.trans hle⟩
    | inr hnew =>
      obtain ⟨rfl, rfl⟩ := hnew
      exact hwalk.2.2 hnode

theorem best_walk (hwins : Compares key wins) (tree : Cells (Option ι)) (walk : List Nat) :
    ∀ found : Option ι,
      let last := walk.foldl (fun found node => pick wins found (tree.read node)) found
      (last = found ∨ ∃ node ∈ walk, last = tree.read node) ∧
      (∀ b, found = some b → ∃ b', last = some b' ∧ key b' ≤ key b) ∧
      (∀ node ∈ walk, ∀ b, tree.read node = some b → ∃ b', last = some b' ∧ key b' ≤ key b) := by
  induction walk with
  | nil => exact fun found => ⟨.inl rfl, fun b hb => ⟨b, hb, le_rfl⟩, fun _ h => by cases h⟩
  | cons first walk ih =>
    intro found
    rw [List.foldl_cons]
    have hfirst : (pick wins found (tree.read first) = found ∨
          pick wins found (tree.read first) = tree.read first) ∧
        (∀ b, found = some b → ∃ b', pick wins found (tree.read first) = some b' ∧ key b' ≤ key b) ∧
        (∀ b, tree.read first = some b →
          ∃ b', pick wins found (tree.read first) = some b' ∧ key b' ≤ key b) := by
      cases hheld : tree.read first with
      | none => exact ⟨.inl rfl, fun b hb => ⟨b, hb, le_rfl⟩, fun _ h => by cases h⟩
      | some i =>
        by_cases hw : wins i found = true
        · have hpick : pick wins found (some i) = some i := if_pos hw
          refine ⟨.inr hpick, ?_, fun b hb => ?_⟩
          · rintro b rfl
            exact ⟨i, hpick, le_of_lt ((hwins.2 i b).mp hw)⟩
          · cases hb
            exact ⟨i, hpick, le_rfl⟩
        · have hpick : pick wins found (some i) = found := if_neg hw
          refine ⟨.inl hpick, fun b hb => ⟨b, hpick.trans hb, le_rfl⟩, fun b hb => ?_⟩
          cases hb
          cases found with
          | none => exact absurd (hwins.1 i) hw
          | some f => exact ⟨f, hpick, not_lt.mp fun hlt => hw ((hwins.2 i f).mpr hlt)⟩
    obtain ⟨hfrom, hkept, hseen⟩ := hfirst
    obtain ⟨hfrom', hkept', hseen'⟩ := ih (pick wins found (tree.read first))
    refine ⟨?_, ?_, ?_⟩
    · cases hfrom' with
      | inl hsame =>
        cases hfrom with
        | inl h => exact .inl (hsame.trans h)
        | inr h => exact .inr ⟨first, List.mem_cons_self, hsame.trans h⟩
      | inr h =>
        obtain ⟨node, hnode, heq⟩ := h
        exact .inr ⟨node, List.mem_cons_of_mem _ hnode, heq⟩
    · intro b hb
      obtain ⟨b₁, hb₁, hle₁⟩ := hkept b hb
      obtain ⟨b₂, hb₂, hle₂⟩ := hkept' b₁ hb₁
      exact ⟨b₂, hb₂, hle₂.trans hle₁⟩
    · intro node hnode b hb
      cases List.mem_cons.mp hnode with
      | inl hhere =>
        subst hhere
        obtain ⟨b₁, hb₁, hle₁⟩ := hseen b hb
        obtain ⟨b₂, hb₂, hle₂⟩ := hkept' b₁ hb₁
        exact ⟨b₂, hb₂, hle₂.trans hle₁⟩
      | inr hlater => exact hseen' node hlater b hb

/-- **Reading finds an item of the prefix.** -/
theorem Holds.best_mem (hwins : Compares key wins) (h : Holds key size put tree) {q : Nat} {b : ι}
    (hb : best wins tree q = some b) : ∃ p, put b p ∧ p ≤ q := by
  have hwalk := (best_walk hwins tree (descend q) none).1
  rw [show (descend q).foldl (fun found node => pick wins found (tree.read node)) none
    = some b from hb] at hwalk
  cases hwalk with
  | inl hnone => cases hnone
  | inr hsome =>
    obtain ⟨node, hnode, heq⟩ := hsome
    obtain ⟨p, hput, hle⟩ := h.below node b heq.symm
    exact ⟨p, hput, hle.trans (le_of_mem_descend hnode)⟩

/-- **No item of the prefix is better than the one read.** -/
theorem Holds.best_le (hwins : Compares key wins) (h : Holds key size put tree) {i : ι} {p q : Nat}
    (hput : put i p) (hp : 0 < p) (hpq : p ≤ q) (hq : q < size) :
    ∃ b, best wins tree q = some b ∧ key b ≤ key i := by
  obtain ⟨node, hup, hdown⟩ := paths_meet hp hpq hq
  obtain ⟨c, hc, hle⟩ := h.good i p hput node hup
  obtain ⟨b, hb, hle'⟩ := (best_walk hwins tree (descend q) none).2.2 node hdown c hc
  exact ⟨b, hb, hle'.trans hle⟩

end Tree

end My98.Lib.Fenwick
