/-
  My98.Disk.CacheRuns — every sequence of calls of the plaintext cache
  (`src/disk/src/lib.rs`: `Cache`).

  Each call advances the tick by one and stamps the entry it touches with it, so the stamp of a
  stored chunk is the number of the last call for its key.  No two are alike, and the least stamp
  is that of the least recently used chunk.

    • `evictKeys`     — the eviction loop of `put`, with the keys that it removes;
    • `lastUse`, `lastPut` — what the calls so far say of a key;
    • `Evictions`     — the least recently used ones, and only while there is no room;
    • `Follows`, `follows_call` — the cache is what the calls so far say;
    • `cache_runs`    — every sequence of calls.
-/
import Mathlib.Algebra.Order.Ring.Nat
import Mathlib.Tactic.Common
import My98.Disk.Cache

namespace My98.Disk.Cache

open My98.Lib

/-! ## §1. Calls. -/

inductive Call where
  | get (key : Nat)
  | put (key : Nat) (b : Bytes)

def Call.key : Call → Nat
  | .get key => key
  | .put key _ => key

/-- The length of the value that is handed over. -/
def Call.size : Call → Nat
  | .get _ => 0
  | .put _ b => b.length

/-- What a call returns, and which keys its loop has removed, in that order. -/
structure Response where
  value : Option Bytes
  evicted : List Nat

/-- The eviction loop, with the keys that it removes. -/
def evictKeys (need : Nat) : Nat → Cache → Except Stop (List Nat × Cache)
  | 0, c => if CACHE_LIMIT < c.bytes + need then .error .diverged else .ok ([], c)
  | fuel + 1, c =>
    if CACHE_LIMIT < c.bytes + need then
      match oldest c.values with
      | none => .error .panic
      | some k =>
        match c.drop k with
        | .error stop => .error stop
        | .ok c => (evictKeys need fuel c).map fun x => (k :: x.1, x.2)
    else .ok ([], c)

/-- It is the loop of `put`. -/
theorem evict_eq (need : Nat) :
    ∀ (fuel : Nat) (c : Cache), evict need fuel c = (evictKeys need fuel c).map Prod.snd := by
  intro fuel
  induction fuel with
  | zero =>
    intro c
    unfold evict evictKeys
    split
    · rfl
    · rfl
  | succ fuel ih =>
    intro c
    unfold evict evictKeys
    by_cases hfull : CACHE_LIMIT < c.bytes + need
    · rw [if_pos hfull, if_pos hfull]
      cases oldest c.values with
      | none => rfl
      | some k =>
        dsimp only
        cases c.drop k with
        | error stop => rfl
        | ok c' =>
          show evict need fuel c' = _
          rw [ih c']
          dsimp only
          cases evictKeys need fuel c' with
          | error stop => rfl
          | ok x => rfl
    · rw [if_neg hfull, if_neg hfull]
      rfl

/-- One call. -/
def call (c : Cache) : Call → Except Stop (Response × Cache)
  | .get key => .ok (⟨(c.get key).1, []⟩, (c.get key).2)
  | .put key b =>
    match c.remove key, c.put key b with
    | .ok c, .ok c' =>
      (evictKeys b.length (c.values.entries.length + 1) c).map fun x => (⟨none, x.1⟩, c')
    | .error stop, _ => .error stop
    | _, .error stop => .error stop

/-- The calls that have been made with what they returned, the latest first. -/
abbrev Log := List (Call × Response)

def calls : Cache → List Call → Except Stop (Log × Cache)
  | c, [] => .ok ([], c)
  | c, call :: rest =>
    match c.call call with
    | .error stop => .error stop
    | .ok (response, c) => (c.calls rest).map fun x => (x.1 ++ [(call, response)], x.2)

/-! ## §2. What the calls say of a key. -/

/-- The number of the last call for a key; 0 before there is one. -/
def lastUse : Log → Nat → Nat
  | [], _ => 0
  | (call, _) :: earlier, key => if call.key = key then earlier.length + 1 else lastUse earlier key

/-- The value of the last `put` for a key, unless it has been evicted since. -/
def lastPut : Log → Nat → Option Bytes
  | [], _ => none
  | (.get _, _) :: earlier, key => lastPut earlier key
  | (.put key' b, response) :: earlier, key =>
    if key' = key then some b
    else if key ∈ response.evicted then none
    else lastPut earlier key

theorem lastUse_of_ne {x : Call} {key : Nat} (h : key ≠ x.key) (response : Response) (earlier : Log) :
    lastUse ((x, response) :: earlier) key = lastUse earlier key := if_neg fun heq => h heq.symm

theorem lastPut_of_ne {key key' : Nat} (h : key ≠ key') (b : Bytes) (response : Response)
    (earlier : Log) : lastPut ((.put key' b, response) :: earlier) key =
      if key ∈ response.evicted then none else lastPut earlier key := if_neg fun heq => h heq.symm

theorem lastUse_le (log : Log) (key : Nat) : lastUse log key ≤ log.length := by
  induction log with
  | nil => exact Nat.le_refl 0
  | cons x earlier ih =>
    unfold lastUse
    split
    · exact Nat.le_refl _
    · exact ih.trans (Nat.le_succ _)

/-- A call is for one key. -/
theorem lastUse_inj {log : Log} {i j : Nat} (hpos : 0 < lastUse log i)
    (h : lastUse log i = lastUse log j) : i = j := by
  induction log with
  | nil => exact absurd hpos (Nat.lt_irrefl 0)
  | cons x earlier ih =>
    have hi := lastUse_le earlier i
    have hj := lastUse_le earlier j
    unfold lastUse at h hpos
    split at h
    next heq =>
      split at h
      next heq' => exact heq.symm.trans heq'
      next => omega
    next hne =>
      rw [if_neg hne] at hpos
      split at h
      next => omega
      next => exact ih hpos h

/-- The loop of `put`, one removal at a time: while the new value has no room, the key goes whose
    last use is the earliest of all that are stored. -/
inductive Evictions (log : Log) (need : Nat) : Cache → List Nat → Cache → Prop
  | room {c : Cache} (hroom : c.bytes + need ≤ CACHE_LIMIT) : Evictions log need c [] c
  | least {c c' : Cache} {k : Nat} {ks : List Nat} {e : Bytes × Nat}
      (hfull : CACHE_LIMIT < c.bytes + need) (hstored : c.values.lookup k = some e)
      (hleast : ∀ i, i ≠ k → (c.values.lookup i).isSome = true → lastUse log k < lastUse log i)
      (hrest : Evictions log need
        { c with values := c.values.erase k, bytes := c.bytes - e.1.length } ks c') :
      Evictions log need c (k :: ks) c'

/-! ## §3. The cache is what the calls say. -/

/-- Every stored chunk has the number of the last call for its key. -/
def Stamped (log : Log) (c : Cache) : Prop :=
  ∀ i e, c.values.lookup i = some e → e.2 = lastUse log i ∧ 0 < e.2

/-- **The invariant.** -/
structure Follows (log : Log) (c : Cache) : Prop where
  counted : c.Counted
  bounded : c.bytes ≤ CACHE_LIMIT
  tick : c.tick = log.length
  stamped : Stamped log c
  stored : ∀ key, c.find key = lastPut log key

theorem follows_new : Follows [] new := by
  refine ⟨counted_new, Nat.zero_le _, rfl, fun i e h => ?_, fun key => rfl⟩
  cases h

section Steps

variable {log : Log} {c : Cache}

/-- No two stored chunks have one stamp. -/
theorem Stamped.distinct (h : Stamped log c) {i j : Nat} {e f : Bytes × Nat}
    (hi : c.values.lookup i = some e) (hj : c.values.lookup j = some f) (heq : e.2 = f.2) : i = j := by
  obtain ⟨hstamp, hpos⟩ := h i e hi
  obtain ⟨hstamp', -⟩ := h j f hj
  rw [hstamp] at hpos
  exact lastUse_inj hpos (hstamp.symm.trans (heq.trans hstamp'))

/-- A cache with less in it. -/
theorem Stamped.subset {c' : Cache} (h : Stamped log c)
    (hsub : ∀ i e, c'.values.lookup i = some e → c.values.lookup i = some e) : Stamped log c' :=
  fun i e he => h i e (hsub i e he)

theorem lookup_erase_some {values : Entries} {k i : Nat} {e : Bytes × Nat}
    (h : (values.erase k).lookup i = some e) : i ≠ k ∧ values.lookup i = some e := by
  by_cases hi : i = k
  · subst hi
    rw [AList.lookup_erase] at h
    cases h
  · rw [AList.lookup_erase_ne hi] at h
    exact ⟨hi, h⟩

/-- The entry with the least stamp is the least recently used one. -/
theorem Stamped.oldest (h : Stamped log c) {k : Nat} (hold : oldest c.values = some k) (i : Nat)
    (hi : i ≠ k) (hstored : (c.values.lookup i).isSome = true) : lastUse log k < lastUse log i := by
  obtain ⟨f, hf⟩ := Option.isSome_iff_exists.mp hstored
  obtain ⟨x, hx, rfl⟩ := Option.map_eq_some_iff.mp hold
  have hmem : (⟨x.1, x.2⟩ : Sigma fun _ : Nat => Bytes × Nat) ∈ c.values.entries := List.argmin_mem hx
  have hx' : c.values.lookup x.1 = some x.2 := AList.mem_lookup_iff.mpr hmem
  have hle : x.2.2 ≤ f.2 :=
    List.le_of_mem_argmin (f := fun e : Sigma fun _ : Nat => Bytes × Nat => e.2.2)
      (AList.mem_lookup_iff.mp hf) hx
  have hne : x.2.2 ≠ f.2 := fun heq => hi (h.distinct hx' hf heq).symm
  rw [← (h _ _ hx').1, ← (h _ _ hf).1]
  omega

/-- **The loop.**  With one turn for each stored chunk it ends, and removes what `Evictions`
    says. -/
theorem evictKeys_spec {need : Nat} (hneed : need ≤ CACHE_LIMIT) :
    ∀ (fuel : Nat) (c : Cache), c.Counted → Stamped log c → c.values.entries.length < fuel →
      ∃ ks c', evictKeys need fuel c = .ok (ks, c') ∧ Evictions log need c ks c' := by
  intro fuel
  induction fuel with
  | zero =>
    intro c _ _ hfuel
    exact absurd hfuel (Nat.not_lt_zero _)
  | succ fuel ih =>
    intro c hc hs hfuel
    unfold evictKeys
    by_cases hfull : CACHE_LIMIT < c.bytes + need
    · rw [if_pos hfull]
      cases ho : Cache.oldest c.values with
      | none =>
        have hzero : c.bytes = 0 := by
          rw [hc, total, oldest_eq_none ho]
          rfl
        omega
      | some k =>
        obtain ⟨e, he⟩ := oldest_lookup ho
        obtain ⟨hdrop, hcounted⟩ := drop_spec hc he
        have hlength := length_erase he
        have hstamped : Stamped log { c with values := c.values.erase k, bytes := c.bytes - e.1.length } :=
          hs.subset fun i f hf => (lookup_erase_some hf).2
        obtain ⟨ks, c', hkeys, hrest⟩ := ih _ hcounted hstamped (by dsimp only; omega)
        refine ⟨k :: ks, c', ?_, .least hfull he (hs.oldest ho) hrest⟩
        dsimp only
        rw [hdrop]
        dsimp only
        rw [hkeys]
        rfl
    · rw [if_neg hfull]
      exact ⟨[], c, rfl, .room (Nat.not_lt.mp hfull)⟩

/-- What is left after the loop: everything that it has not removed, and room. -/
theorem Evictions.frame {need : Nat} {c c' : Cache} {ks : List Nat} (h : Evictions log need c ks c') :
    c'.bytes + need ≤ CACHE_LIMIT ∧ c'.tick = c.tick ∧
      ∀ i, c'.values.lookup i = if i ∈ ks then none else c.values.lookup i := by
  induction h with
  | room hroom => exact ⟨hroom, rfl, fun i => (if_neg List.not_mem_nil).symm⟩
  | @least c c' k ks e hfull hstored hleast hrest ih =>
    obtain ⟨hroom, htick, hlook⟩ := ih
    refine ⟨hroom, htick, fun i => ?_⟩
    rw [hlook i]
    by_cases hks : i ∈ ks
    · rw [if_pos hks, if_pos (List.mem_cons_of_mem k hks)]
    · rw [if_neg hks]
      by_cases hi : i = k
      · subst hi
        rw [if_pos List.mem_cons_self]
        exact AList.lookup_erase i c.values
      · rw [if_neg fun hmem => (List.mem_cons.mp hmem).elim hi hks]
        exact AList.lookup_erase_ne hi

theorem Evictions.counted {need : Nat} {c c' : Cache} {ks : List Nat} (h : Evictions log need c ks c')
    (hc : c.Counted) : c'.Counted := by
  induction h with
  | room hroom => exact hc
  | least hfull hstored hleast hrest ih => exact ih (drop_spec hc hstored).2

/-- `if let Some((v, _)) = self.values.remove(&key)`. -/
theorem remove_spec (hc : c.Counted) (key : Nat) : ∃ c₁, c.remove key = .ok c₁ ∧ c₁.Counted ∧
    c₁.tick = c.tick ∧ c₁.bytes ≤ c.bytes ∧
    ∀ i, c₁.values.lookup i = if i = key then none else c.values.lookup i := by
  unfold remove
  cases hl : c.values.lookup key with
  | none =>
    refine ⟨c, rfl, hc, rfl, Nat.le_refl _, fun i => ?_⟩
    split
    next hi => rw [hi, hl]
    · rfl
  | some e =>
    obtain ⟨hdrop, hcounted⟩ := drop_spec hc hl
    refine ⟨_, hdrop, hcounted, rfl, Nat.sub_le _ _, fun i => ?_⟩
    split
    next hi =>
      subst hi
      exact AList.lookup_erase i c.values
    next hi => exact AList.lookup_erase_ne hi

/-- The cache after the loop of `put`, with the new value. -/
def store (c : Cache) (key : Nat) (b : Bytes) : Cache :=
  { values := c.values.insert key (b, c.tick + 1), bytes := c.bytes + b.length, tick := c.tick + 1 }

theorem lookup_store_ne {key i : Nat} (hi : i ≠ key) (b : Bytes) :
    (c.store key b).values.lookup i = c.values.lookup i := AList.lookup_insert_ne hi

theorem lookup_store (key : Nat) (b : Bytes) :
    (c.store key b).values.lookup key = some (b, c.tick + 1) := AList.lookup_insert c.values

/-- **One `put`.** -/
theorem Follows.put (h : Follows log c) (key : Nat) {b : Bytes} (hb : b.length ≤ CACHE_LIMIT) :
    ∃ c₁ ks c₂, c.remove key = .ok c₁ ∧ Evictions log b.length c₁ ks c₂ ∧
      c.put key b = .ok (c₂.store key b) ∧
      c.call (.put key b) = .ok (⟨none, ks⟩, c₂.store key b) ∧
      Follows ((.put key b, ⟨none, ks⟩) :: log) (c₂.store key b) := by
  obtain ⟨c₁, hremove, hc₁, htick₁, -, hlook₁⟩ := remove_spec h.counted key
  have hs₁ : Stamped log c₁ := h.stamped.subset fun i e he => by
    rw [hlook₁ i] at he
    split at he
    · cases he
    · exact he
  obtain ⟨ks, c₂, hkeys, hev⟩ :=
    evictKeys_spec hb (c₁.values.entries.length + 1) c₁ hc₁ hs₁ (Nat.lt_succ_self _)
  obtain ⟨hroom, htick₂, hlook₂⟩ := hev.frame
  have hput : c.put key b = .ok (c₂.store key b) := by
    unfold Cache.put
    rw [hremove]
    show (evict b.length (c₁.values.entries.length + 1) c₁ >>= _) = _
    rw [evict_eq, hkeys]
    rfl
  -- The key was removed before the loop, so it is stored as a new one.
  have hnone : c₂.values.lookup key = none := by
    rw [hlook₂ key, hlook₁ key, if_pos rfl, ite_self]
  have htick : c₂.tick = log.length := by rw [htick₂, htick₁, h.tick]
  -- any other key is as it was, unless the loop has removed it
  have hother : ∀ i, i ≠ key →
      (c₂.store key b).values.lookup i = if i ∈ ks then none else c.values.lookup i := by
    intro i hi
    rw [lookup_store_ne hi, hlook₂ i, hlook₁ i, if_neg hi]
  refine ⟨c₁, ks, c₂, hremove, hev, hput, ?_, ?_, hroom, ?_, fun i e he => ?_, fun i => ?_⟩
  · unfold call
    dsimp only
    rw [hremove, hput]
    dsimp only
    rw [hkeys]
    rfl
  · show c₂.bytes + b.length = total (c₂.values.insert key (b, c₂.tick + 1))
    rw [total_insert hnone, hev.counted hc₁]
  · show c₂.tick + 1 = log.length + 1
    rw [htick]
  · by_cases hi : i = key
    · subst hi
      rw [lookup_store] at he
      rw [← Option.some.inj he, htick]
      exact ⟨(if_pos rfl).symm, Nat.succ_pos _⟩
    · rw [hother i hi] at he
      split at he
      · cases he
      · obtain ⟨hstamp, hpos⟩ := h.stamped i e he
        exact ⟨hstamp.trans (lastUse_of_ne hi _ log).symm, hpos⟩
  · by_cases hi : i = key
    · subst hi
      unfold find
      rw [lookup_store]
      exact (if_pos rfl).symm
    · have hstored := h.stored i
      unfold find at hstored ⊢
      rw [hother i hi, lastPut_of_ne hi]
      dsimp only
      split
      · rfl
      · exact hstored

/-- **One `get`.** -/
theorem Follows.get (h : Follows log c) (key : Nat) :
    Follows ((.get key, ⟨(c.get key).1, []⟩) :: log) (c.get key).2 := by
  have htick : (c.get key).2.tick = c.tick + 1 := by
    unfold Cache.get
    cases c.values.lookup key with
    | none => rfl
    | some e => rfl
  have hbytes : (c.get key).2.bytes = c.bytes := by
    unfold Cache.get
    cases c.values.lookup key with
    | none => rfl
    | some e => rfl
  refine ⟨counted_get h.counted key, ?_, ?_, fun i e he => ?_, fun i => ?_⟩
  · rw [hbytes]
    exact h.bounded
  · rw [htick, h.tick]
    rfl
  · have hkept : i ≠ key → c.values.lookup i = some e → e.2 = lastUse
        ((.get key, ⟨(c.get key).1, []⟩) :: log) i ∧ 0 < e.2 := by
      intro hi hold
      obtain ⟨hstamp, hpos⟩ := h.stamped i e hold
      exact ⟨hstamp.trans (lastUse_of_ne hi _ log).symm, hpos⟩
    cases hl : c.values.lookup key with
    | none =>
      have hvalues : (c.get key).2.values = c.values := by
        unfold Cache.get
        rw [hl]
      rw [hvalues] at he
      refine hkept (fun hi => ?_) he
      rw [hi, hl] at he
      cases he
    | some x =>
      have hvalues : (c.get key).2.values = c.values.insert key (x.1, c.tick + 1) := by
        unfold Cache.get
        rw [hl]
      rw [hvalues] at he
      by_cases hi : i = key
      · subst hi
        rw [AList.lookup_insert] at he
        rw [← Option.some.inj he, h.tick]
        exact ⟨(if_pos rfl).symm, Nat.succ_pos _⟩
      · rw [AList.lookup_insert_ne hi] at he
        exact hkept hi he
  · rw [find_get]
    exact h.stored i

end Steps

/-! ## §4. Runs. -/

/-- **One call** succeeds, and the cache goes on saying what the calls say. -/
theorem follows_call {log : Log} {c : Cache} (h : Follows log c) (x : Call) (hx : x.size ≤ CACHE_LIMIT) :
    ∃ response c', c.call x = .ok (response, c') ∧ Follows ((x, response) :: log) c' := by
  cases x with
  | get key => exact ⟨_, _, rfl, h.get key⟩
  | put key b =>
    obtain ⟨_, ks, c₂, -, -, -, hcall, hfollows⟩ := h.put key hx
    exact ⟨_, _, hcall, hfollows⟩

/-- Any number of calls. -/
theorem follows_calls : ∀ (xs : List Call) {log : Log} {c : Cache}, Follows log c →
    (∀ x ∈ xs, x.size ≤ CACHE_LIMIT) →
    ∃ log' c', c.calls xs = .ok (log', c') ∧ log'.map Prod.fst = xs.reverse ∧
      Follows (log' ++ log) c' := by
  intro xs
  induction xs with
  | nil => exact fun {_ c} h _ => ⟨[], c, rfl, rfl, h⟩
  | cons x rest ih =>
    intro log c h hsize
    obtain ⟨response, c₁, hcall, hfirst⟩ := follows_call h x (hsize x List.mem_cons_self)
    obtain ⟨log', c', hcalls, hmap, hlast⟩ :=
      ih hfirst fun y hy => hsize y (List.mem_cons_of_mem x hy)
    refine ⟨log' ++ [(x, response)], c', ?_, ?_, ?_⟩
    · unfold calls
      rw [hcall]
      dsimp only
      rw [hcalls]
      rfl
    · rw [List.map_append, hmap, List.reverse_cons]
      rfl
    · rw [List.append_assoc]
      exact hlast

/-- **The plaintext cache**, after any sequence of calls with chunks of the disk.  Its counters are
    exact; a `get` would return what was put last and not evicted since; and a `put` would succeed,
    removing the least recently used chunks and no more of them than it has to. -/
theorem cache_runs (past : List Call) (hsize : ∀ x ∈ past, x.size ≤ CHUNK) :
    ∃ log c, new.calls past = .ok (log, c) ∧ log.map Prod.fst = past.reverse ∧
      c.bytes = total c.values ∧ c.bytes ≤ CACHE_LIMIT ∧ c.tick = past.length ∧
      (∀ i e, c.values.lookup i = some e → e.2 ≤ c.tick) ∧
      (∀ i j e f, c.values.lookup i = some e → c.values.lookup j = some f → e.2 = f.2 → i = j) ∧
      (∀ key, (c.get key).1 = lastPut log key) ∧
      ∀ key b, b.length ≤ CHUNK → ∃ c₁ ks c₂, c.remove key = .ok c₁ ∧
        Evictions log b.length c₁ ks c₂ ∧ c.put key b = .ok (c₂.store key b) ∧
        c.call (.put key b) = .ok (⟨none, ks⟩, c₂.store key b) := by
  have hlimit : CHUNK ≤ CACHE_LIMIT := by decide
  obtain ⟨log, c, hcalls, hmap, hfollows⟩ :=
    follows_calls past follows_new fun x hx => (hsize x hx).trans hlimit
  rw [List.append_nil] at hfollows
  have hlength : log.length = past.length := by
    have hlength := congrArg List.length hmap
    rwa [List.length_map, List.length_reverse] at hlength
  refine ⟨log, c, hcalls, hmap, hfollows.counted, hfollows.bounded, hfollows.tick.trans hlength,
    fun i e he => ?_, fun i j e f he hf heq => hfollows.stamped.distinct he hf heq, fun key => ?_,
    fun key b hb => ?_⟩
  · rw [(hfollows.stamped i e he).1, hfollows.tick]
    exact lastUse_le log i
  · rw [get_fst]
    exact hfollows.stored key
  · obtain ⟨c₁, ks, c₂, hremove, hev, hput, hcall, -⟩ := hfollows.put key (hb.trans hlimit)
    exact ⟨c₁, ks, c₂, hremove, hev, hput, hcall⟩

/-- A chunk that is put, read and followed by another one. -/
theorem demo_cache_runs : ∃ log c, new.calls [.put 3 [7], .get 3, .put 4 [8, 9]] = .ok (log, c) ∧
    c.bytes = 3 ∧ c.tick = 3 ∧ (c.get 3).1 = some [7] := by
  have hsize : ∀ x ∈ [Call.put 3 [7], .get 3, .put 4 [8, 9]], x.size ≤ CHUNK := by
    intro x hx
    simp only [List.mem_cons, List.not_mem_nil, or_false] at hx
    rcases hx with rfl | rfl | rfl
    · decide
    · decide
    · decide
  obtain ⟨log, c, hcalls, -, hbytes, -, htick, -, -, hget, -⟩ := cache_runs _ hsize
  have hrun : (new.calls [.put 3 [7], .get 3, .put 4 [8, 9]]).toOption.map
      (fun x => (x.2.bytes, (x.2.get 3).1)) = some (3, some [7]) := by decide +kernel
  rw [hcalls] at hrun
  obtain ⟨htotal, hvalue⟩ := Prod.mk.inj (Option.some.inj hrun)
  exact ⟨log, c, hcalls, htotal, htick, hvalue⟩

end My98.Disk.Cache
