/-
  My98.Disk.Cache — the plaintext cache of an open image
  (`src/disk/src/lib.rs`: `Cache`).

  A bounded map from chunk index to decrypted chunk.  Every `get` and `put` advances the
  tick and stamps the entry it touches; `put` makes room by evicting the entry with the
  least stamp until the new value fits.  `bytes` is a running total of the stored lengths:
  keeping it equal to the real total (`Cache.Counted`) is what makes the eviction loop
  terminate and its `unwrap`s and subtractions safe.
-/
import Mathlib.Data.List.AList
import Mathlib.Data.List.MinMax
import My98.Disk.Header

namespace My98.Disk

open My98.Lib

/-- `HashMap<u64, (Zeroizing<Vec<u8>>, u64)>`: value and stamp. -/
abbrev Entries := AList (fun _ : Nat => Bytes × Nat)

structure Cache where
  values : Entries
  bytes : Nat
  tick : Nat

def CACHE_LIMIT : Nat := 32 * 1024 * 1024 - 512

namespace Cache

def new : Cache := { values := ∅, bytes := 0, tick := 0 }

def get (c : Cache) (key : Nat) : Option Bytes × Cache :=
  let tick := c.tick + 1
  match c.values.lookup key with
  | none => (none, { c with tick })
  | some (v, _) => (some v, { c with values := c.values.insert key (v, tick), tick })

/-- The key `iter().min_by_key(|(_, (_, t))| t)` selects. -/
def oldest (values : Entries) : Option Nat :=
  (values.entries.argmin fun e => e.2.2).map Sigma.fst

/-- `bytes -= values.remove(&key).unwrap().0.len()`. -/
def drop (c : Cache) (key : Nat) : Except Stop Cache :=
  match c.values.lookup key with
  | none => .error .panic
  | some (v, _) =>
    if v.length ≤ c.bytes then
      .ok { c with values := c.values.erase key, bytes := c.bytes - v.length }
    else .error .panic

/-- The eviction loop of `put`, making room for `need` bytes. -/
def evict (need : Nat) : Nat → Cache → Except Stop Cache
  | 0, c => if CACHE_LIMIT < c.bytes + need then .error .diverged else .ok c
  | fuel + 1, c =>
    if CACHE_LIMIT < c.bytes + need then
      match oldest c.values with
      | none => .error .panic
      | some k => do evict need fuel (← c.drop k)
    else .ok c

/-- `if let Some((v, _)) = values.remove(&key) { bytes -= v.len() }`. -/
def remove (c : Cache) (key : Nat) : Except Stop Cache :=
  if (c.values.lookup key).isSome then c.drop key else .ok c

def put (c : Cache) (key : Nat) (b : Bytes) : Except Stop Cache := do
  let c ← c.remove key
  let c ← evict b.length (c.values.entries.length + 1) c
  pure { values := c.values.insert key (b, c.tick + 1), bytes := c.bytes + b.length,
         tick := c.tick + 1 }

/-! ## §1. The running total. -/

/-- The bytes really stored. -/
def total (values : Entries) : Nat := (values.entries.map fun e => e.2.1.length).sum

/-- The invariant: `bytes` is the number of bytes stored. -/
def Counted (c : Cache) : Prop := c.bytes = total c.values

/-- The chunk stored under `key`, without its stamp. -/
def find (c : Cache) (key : Nat) : Option Bytes := (c.values.lookup key).map Prod.fst

theorem sum_kerase {key : Nat} {v : Bytes × Nat} {l : List (Sigma fun _ : Nat => Bytes × Nat)}
    (h : l.dlookup key = some v) :
    ((l.kerase key).map fun e => e.2.1.length).sum + v.1.length
      = (l.map fun e => e.2.1.length).sum := by
  have hmem : key ∈ l.keys := List.dlookup_isSome.mp (by rw [h]; rfl)
  obtain ⟨w, l₁, l₂, hnot, hl, herase⟩ := List.exists_of_kerase hmem
  have hw : w = v := by
    rw [hl, List.dlookup_append, List.dlookup_eq_none.mpr hnot] at h
    simpa using h
  rw [herase, hl, ← hw]
  simp only [List.map_append, List.map_cons, List.sum_append, List.sum_cons]
  omega

theorem total_erase {values : Entries} {key : Nat} {v : Bytes × Nat}
    (h : values.lookup key = some v) : total (values.erase key) + v.1.length = total values :=
  sum_kerase h

theorem total_insert {values : Entries} {key : Nat} {v : Bytes × Nat}
    (h : values.lookup key = none) : total (values.insert key v) = total values + v.1.length := by
  have hk : values.entries.kerase key = values.entries :=
    List.kerase_of_notMem_keys (List.dlookup_eq_none.mp h)
  simp only [total, AList.entries_insert, hk, List.map_cons, List.sum_cons]
  omega

/-- Restamping an entry keeps the total. -/
theorem total_restamp {values : Entries} {key t t' : Nat} {v : Bytes}
    (h : values.lookup key = some (v, t)) : total (values.insert key (v, t')) = total values := by
  have hs := sum_kerase h
  simp only [total, AList.entries_insert, List.map_cons, List.sum_cons] at hs ⊢
  omega

/-! ## §2. What `get` and `put` do. -/

theorem find_new (key : Nat) : new.find key = none := rfl

theorem counted_new : new.Counted := rfl

/-- `get` returns what is stored and leaves the stored chunks alone. -/
theorem get_fst (c : Cache) (key : Nat) : (c.get key).1 = c.find key := by
  unfold get find
  cases c.values.lookup key <;> rfl

theorem find_get (c : Cache) (key i : Nat) : (c.get key).2.find i = c.find i := by
  unfold get
  cases h : c.values.lookup key with
  | none => rfl
  | some e =>
    show ((c.values.insert key (e.1, c.tick + 1)).lookup i).map Prod.fst = _
    unfold find
    by_cases hi : i = key
    · subst hi
      rw [AList.lookup_insert, h]
      rfl
    · rw [AList.lookup_insert_ne hi]

theorem counted_get {c : Cache} (h : c.Counted) (key : Nat) : (c.get key).2.Counted := by
  unfold get
  cases hl : c.values.lookup key with
  | none => exact h
  | some e =>
    show c.bytes = total (c.values.insert key (e.1, c.tick + 1))
    rw [total_restamp (t := e.2) hl]
    exact h

theorem drop_spec {c : Cache} (hc : c.Counted) {key : Nat} {e : Bytes × Nat}
    (h : c.values.lookup key = some e) :
    c.drop key = .ok { c with values := c.values.erase key, bytes := c.bytes - e.1.length }
      ∧ Counted { c with values := c.values.erase key, bytes := c.bytes - e.1.length } := by
  have ht := total_erase h
  unfold Counted at hc ⊢
  unfold drop
  rw [h]
  dsimp only
  rw [if_pos (by omega)]
  exact ⟨rfl, by omega⟩

theorem oldest_eq_none {values : Entries} (h : oldest values = none) : values.entries = [] := by
  unfold oldest at h
  rw [Option.map_eq_none_iff] at h
  exact List.argmin_eq_none.mp h

theorem oldest_lookup {values : Entries} {k : Nat} (h : oldest values = some k) :
    ∃ e, values.lookup k = some e := by
  unfold oldest at h
  rw [Option.map_eq_some_iff] at h
  obtain ⟨e, he, rfl⟩ := h
  refine ⟨e.2, ?_⟩
  have hmem : (⟨e.1, e.2⟩ : Sigma fun _ : Nat => Bytes × Nat) ∈ values.entries :=
    List.argmin_mem he
  exact AList.mem_lookup_iff.mpr hmem

theorem length_erase {values : Entries} {k : Nat} {e : Bytes × Nat}
    (h : values.lookup k = some e) :
    (values.erase k).entries.length + 1 = values.entries.length := by
  have hk : k ∈ values.keys := AList.mem_keys.mp (AList.lookup_isSome.mp (by rw [h]; rfl))
  have hkeys : (values.erase k).keys.length = values.keys.length - 1 := by
    rw [AList.keys_erase, List.length_erase_of_mem hk]
  have hpos : 0 < values.keys.length := List.length_pos_of_mem hk
  simp only [AList.keys, List.keys, List.length_map] at hkeys hpos
  omega

/-- **The eviction loop ends with room for the new value.**  The measure is the number of
    stored entries; with none left `bytes` is zero and the loop condition is false. -/
theorem evict_spec {need : Nat} (hneed : need ≤ CACHE_LIMIT) :
    ∀ (fuel : Nat) (c : Cache), c.Counted → c.values.entries.length < fuel →
      ∃ c', evict need fuel c = .ok c' ∧ c'.Counted ∧ c'.bytes + need ≤ CACHE_LIMIT
        ∧ c'.tick = c.tick
        ∧ ∀ i, c'.values.lookup i = none ∨ c'.values.lookup i = c.values.lookup i := by
  intro fuel
  induction fuel with
  | zero => intro c _ hfuel; omega
  | succ fuel ih =>
    intro c hc hfuel
    unfold evict
    by_cases hfull : CACHE_LIMIT < c.bytes + need
    · rw [if_pos hfull]
      cases ho : oldest c.values with
      | none =>
        -- an empty cache has no bytes, so it cannot be over the limit
        have hempty := oldest_eq_none ho
        have hzero : c.bytes = 0 := by
          rw [hc, total, hempty]
          rfl
        omega
      | some k =>
        obtain ⟨e, he⟩ := oldest_lookup ho
        obtain ⟨hdrop, hcounted⟩ := drop_spec hc he
        have hlen := length_erase he
        obtain ⟨c', hev, hc', hroom, htick, hlook⟩ := ih _ hcounted (by dsimp only; omega)
        refine ⟨c', ?_, hc', hroom, htick, fun i => ?_⟩
        · dsimp only
          rw [hdrop]
          exact hev
        · rcases hlook i with h | h
          · exact .inl h
          · dsimp only at h
            by_cases hi : i = k
            · subst hi
              rw [AList.lookup_erase] at h
              exact .inl h
            · rw [AList.lookup_erase_ne hi] at h
              exact .inr h
    · rw [if_neg hfull]
      exact ⟨c, rfl, hc, by omega, rfl, fun i => .inr rfl⟩

/-- **`put` succeeds**, keeps the total exact and within the limit, stores the new value, and
    otherwise only forgets. -/
theorem put_spec {c : Cache} (hc : c.Counted) (key : Nat) {b : Bytes}
    (hb : b.length ≤ CACHE_LIMIT) :
    ∃ c', c.put key b = .ok c' ∧ c'.Counted ∧ c'.bytes ≤ CACHE_LIMIT ∧ c'.find key = some b
      ∧ ∀ i, i ≠ key → c'.find i = none ∨ c'.find i = c.find i := by
  -- first the value under `key`, if any, is taken out
  obtain ⟨c₁, hfirst, hc₁, hnone, hother⟩ :
      ∃ c₁ : Cache, c.remove key = .ok c₁
        ∧ c₁.Counted ∧ c₁.values.lookup key = none
        ∧ ∀ i, i ≠ key → c₁.values.lookup i = c.values.lookup i := by
    unfold remove
    cases hl : c.values.lookup key with
    | none => exact ⟨c, rfl, hc, hl, fun _ _ => rfl⟩
    | some e =>
      obtain ⟨hdrop, hcounted⟩ := drop_spec hc hl
      refine ⟨_, hdrop, hcounted, AList.lookup_erase key c.values, fun i hi => ?_⟩
      exact AList.lookup_erase_ne hi
  obtain ⟨c₂, hevict, hc₂, hroom, htick, hlook⟩ :=
    evict_spec hb (c₁.values.entries.length + 1) c₁ hc₁ (by omega)
  have hnone₂ : c₂.values.lookup key = none := by
    rcases hlook key with h | h
    · exact h
    · rw [h, hnone]
  refine ⟨{ values := c₂.values.insert key (b, c₂.tick + 1), bytes := c₂.bytes + b.length,
            tick := c₂.tick + 1 }, ?_, ?_, ?_, ?_, ?_⟩
  · unfold put
    rw [hfirst]
    show (evict b.length (c₁.values.entries.length + 1) c₁ >>= _) = _
    rw [hevict]
    rfl
  · show c₂.bytes + b.length = total (c₂.values.insert key (b, c₂.tick + 1))
    rw [total_insert hnone₂, hc₂]
  · exact hroom
  · show ((c₂.values.insert key (b, c₂.tick + 1)).lookup key).map Prod.fst = some b
    rw [AList.lookup_insert]
    rfl
  · intro i hi
    show ((c₂.values.insert key (b, c₂.tick + 1)).lookup i).map Prod.fst = none
      ∨ ((c₂.values.insert key (b, c₂.tick + 1)).lookup i).map Prod.fst = c.find i
    rw [AList.lookup_insert_ne hi]
    rcases hlook i with h | h
    · rw [h]
      exact .inl rfl
    · rw [h, hother i hi]
      exact .inr rfl

end Cache

end My98.Disk
