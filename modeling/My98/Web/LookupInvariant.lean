/-
  My98.Web.LookupInvariant — what a lookup knows about the records it has parsed.

  Conflicts are looked for in TWO places: the map of the observations, which an observation skips
  after an abort, and the final pass, which does not see an API whose observation failed.
  `Tracks` is the bookkeeping that relates the two to the records that were parsed; one lemma per
  move, then `Tracks.step`.

  The maps themselves: `Reflects seen rs` says that a map holds exactly the identities of the
  records `rs`, and `finalPass_none`, `finalPass_some` what the final pass computes.
-/
import Mathlib.Algebra.Order.Ring.Nat
import Mathlib.Tactic.Common
import My98.Web.Lookup

namespace My98.Web.Records

open My98.Lib

/-! ## §1. Maps from sequences to identities. -/

/-- Two of the records have one sequence and different contents. -/
def Clash (rs : List WebRecord) : Prop := ∃ a ∈ rs, ∃ b ∈ rs, Conflicting a b

instance (rs : List WebRecord) : Decidable (Clash rs) :=
  inferInstanceAs (Decidable (∃ a ∈ rs, ∃ b ∈ rs, Conflicting a b))

/-- A clash stays among more records. -/
theorem Clash.mono {rs rs' : List WebRecord} (h : Clash rs) (hsub : ∀ r ∈ rs, r ∈ rs') :
    Clash rs' := by
  obtain ⟨a, ha, b, hb, hab⟩ := h
  exact ⟨a, hsub a ha, b, hsub b hb, hab⟩

/-- The map holds the identities of these records and nothing else. -/
def Reflects (seen : List (Nat × Contents)) (rs : List WebRecord) : Prop :=
  ∀ seq contents, seen.lookup seq = some contents ↔
    ∃ r ∈ rs, r.sequence = seq ∧ r.contents = contents

/-- The newest of these records. -/
structure Newest (best : Option WebRecord) (rs : List WebRecord) : Prop where
  bound : ∀ r ∈ rs, ∃ b, best = some b ∧ r.sequence ≤ b.sequence
  mem : ∀ b, best = some b → b ∈ rs

section Maps

variable {seen : List (Nat × Contents)} {rs : List WebRecord} {r : WebRecord}
  {best : Option WebRecord}

/-- A record clashes when another value was seen with its sequence. -/
theorem clashes_iff : clashes seen r = true ↔
    ∃ previous, seen.lookup r.sequence = some previous ∧ previous ≠ r.contents := by
  unfold clashes
  cases seen.lookup r.sequence <;> simp

/-- A map can say one thing about a sequence. -/
theorem Reflects.calm (h : Reflects seen rs) : ¬Clash rs := by
  rintro ⟨a, ha, b, hb, hseq, hcontents⟩
  have hla := (h a.sequence a.contents).mpr ⟨a, ha, rfl, rfl⟩
  have hlb := (h b.sequence b.contents).mpr ⟨b, hb, rfl, rfl⟩
  rw [hseq, hlb] at hla
  exact hcontents (Option.some.inj hla).symm

/-- The table reflects one more record. -/
theorem Reflects.mark (h : Reflects seen rs) (hr : clashes seen r = false) :
    Reflects (mark seen r) (rs ++ [r]) := by
  intro seq contents
  show ((r.sequence, r.contents) :: seen).lookup seq = some contents ↔ _
  rw [List.lookup_cons]
  by_cases hseq : seq = r.sequence
  · subst hseq
    simp only [BEq.rfl, Option.some.injEq]
    constructor
    · intro hc
      exact ⟨r, by simp, rfl, hc⟩
    · rintro ⟨r', hr', hseq', rfl⟩
      rcases List.mem_append.mp hr' with hold | hnew
      · -- An older record with this sequence: the map holds it, and it does not clash.
        have hlook := (h r.sequence r'.contents).mpr ⟨r', hold, hseq', rfl⟩
        by_contra hne
        have := clashes_iff.mpr ⟨_, hlook, fun heq => hne heq.symm⟩
        rw [hr] at this
        cases this
      · rw [List.mem_singleton.mp hnew]
  · rw [show (seq == r.sequence) = false by simpa using hseq]
    show seen.lookup seq = some contents ↔ _
    rw [h seq contents]
    constructor
    · rintro ⟨r', hr', heq⟩
      exact ⟨r', List.mem_append_left _ hr', heq⟩
    · rintro ⟨r', hr', hseq', hc⟩
      rcases List.mem_append.mp hr' with hold | hnew
      · exact ⟨r', hold, hseq', hc⟩
      · obtain rfl := List.mem_singleton.mp hnew
        exact absurd hseq'.symm hseq

/-- A record that clashes with the table clashes with one of the records. -/
theorem Reflects.clash (h : Reflects seen rs) (hr : clashes seen r = true) :
    Clash (rs ++ [r]) := by
  obtain ⟨previous, hlook, hne⟩ := clashes_iff.mp hr
  obtain ⟨r', hr', hseq, rfl⟩ := (h _ _).mp hlook
  exact ⟨r', List.mem_append_left _ hr', r, by simp, hseq, hne⟩

/-- The table at the start reflects the stored record. -/
theorem reflects_seenOf (best : Option WebRecord) : Reflects (seenOf best) best.toList := by
  have hnil : Reflects [] [] := by
    intro seq contents
    simp
  cases best with
  | none => exact hnil
  | some b => exact hnil.mark (r := b) rfl

/-- The newest is the new record, or the one before. -/
theorem newest_cases (best : Option WebRecord) (r : WebRecord) :
    (newest best r = some r ∧ ∀ b, best = some b → b.sequence < r.sequence) ∨
      ∃ b, best = some b ∧ newest best r = some b ∧ r.sequence ≤ b.sequence := by
  unfold newest
  cases best with
  | none => exact .inl ⟨rfl, by simp⟩
  | some b =>
    by_cases hlt : b.sequence < r.sequence
    · left
      simp [hlt]
    · right
      simp [hlt]
      omega

/-- The newest of one more record. -/
theorem Newest.push (h : Newest best rs) (r : WebRecord) : Newest (newest best r) (rs ++ [r]) := by
  rcases newest_cases best r with ⟨hnew, hlt⟩ | ⟨b, hb, hnew, hle⟩
  · rw [hnew]
    constructor
    · intro x hx
      refine ⟨r, rfl, ?_⟩
      rcases List.mem_append.mp hx with hold | hr
      · obtain ⟨b, hb, hxb⟩ := h.bound x hold
        have := hlt b hb
        omega
      · rw [List.mem_singleton.mp hr]
    · intro b hb
      obtain rfl := Option.some.inj hb
      simp
  · rw [hnew]
    constructor
    · intro x hx
      refine ⟨b, rfl, ?_⟩
      rcases List.mem_append.mp hx with hold | hr
      · obtain ⟨b', hb', hxb⟩ := h.bound x hold
        rw [hb] at hb'
        obtain rfl := Option.some.inj hb'
        exact hxb
      · rw [List.mem_singleton.mp hr]
        exact hle
    · intro b' hb'
      obtain rfl := Option.some.inj hb'
      exact List.mem_append_left _ (h.mem _ hb)

/-- At the start it is the stored record. -/
theorem newest_seenOf (best : Option WebRecord) : Newest best best.toList := by
  constructor
  · intro r hr
    exact ⟨r, by simpa using hr, Nat.le_refl _⟩
  · intro b hb
    simpa using hb

/-- The final pass throws only at two records that contradict each other. -/
theorem finalPass_none {more : List WebRecord} : ∀ {seen : List (Nat × Contents)}
    {best : Option WebRecord} {rs : List WebRecord}, Reflects seen rs →
    finalPass seen best more = none → Clash (rs ++ more) := by
  induction more with
  | nil =>
    intro seen best rs _ hpass
    cases hpass
  | cons r more ih =>
    intro seen best rs h hpass
    have happ : rs ++ r :: more = rs ++ [r] ++ more := by simp
    rw [happ]
    unfold finalPass at hpass
    split at hpass
    next hclash => exact (h.clash hclash).mono fun x hx => List.mem_append_left _ hx
    next hclash => exact ih (h.mark (by simpa using hclash)) hpass

/-- Otherwise there are none, and the result is the newest record. -/
theorem finalPass_some {more : List WebRecord} : ∀ {seen : List (Nat × Contents)}
    {best best' : Option WebRecord} {rs : List WebRecord}, Reflects seen rs → Newest best rs →
    finalPass seen best more = some best' → ¬Clash (rs ++ more) ∧ Newest best' (rs ++ more) := by
  induction more with
  | nil =>
    intro seen best best' rs h hnew hpass
    obtain rfl := Option.some.inj hpass
    rw [List.append_nil]
    exact ⟨h.calm, hnew⟩
  | cons r more ih =>
    intro seen best best' rs h hnew hpass
    have happ : rs ++ r :: more = rs ++ [r] ++ more := by simp
    rw [happ]
    unfold finalPass at hpass
    split at hpass
    · cases hpass
    next hclash => exact ih (h.mark (by simpa using hclash)) (hnew.push r) hpass

end Maps

/-! ## §2. The bookkeeping of a lookup. -/

structure Tracks (l : Lookup) : Prop where
  /-- An API that has answered is one of those asked. -/
  range : ∀ j, l.slots j ≠ .fetching → j < l.apis
  /-- A parsed record is still observed, or was answered with, or its observation failed. -/
  held : ∀ r ∈ l.parsed, (∃ j, l.slots j = .queued r) ∨ (∃ j, l.slots j = .fulfilled (some r)) ∨
    r ∈ l.failed
  parsed : ∀ j r, l.slots j = .queued r ∨ l.slots j = .fulfilled (some r) → r ∈ l.parsed
  /-- An answer was compared with the map, or skipped, or there is no map. -/
  kept : ∀ j r, l.slots j = .fulfilled (some r) →
    r ∈ l.looked ∨ r ∈ l.skipped ∨ l.onRecord = false
  queued : ∀ j r, l.slots j = .queued r → l.onRecord = true
  failed : ∀ r ∈ l.failed, r ∈ l.looked ∧ l.onRecord = true
  /-- The record of the running observation. -/
  running : ∀ j stage, l.active = some (j, stage) → ∃ r ∈ l.looked, l.slots j = .queued r
  /-- An observation does not run on past a conflict. -/
  calm : l.active ≠ none → l.conflict = false
  map : l.conflict = false → Reflects l.streamed l.looked
  clash : l.conflict = true → Clash l.looked
  best : ∀ b, l.best = some b → b ∈ l.looked ∧ b ∈ l.durables
  looked : ∀ r ∈ l.looked, r ∈ l.best.toList ++ l.parsed
  skipped : ∀ r ∈ l.skipped, l.aborted = true ∧ l.active = none

section Tracks

variable {l : Lookup} {j : Nat} {r : WebRecord} {c : Checks} {db : Database}

/-- A lookup that starts keeps track. -/
theorem Tracks.start (key : String) (locations onRecord : Bool) (apis : Nat) :
    Tracks (.start key locations onRecord apis) := by
  have hnil : Reflects [] [] := reflects_seenOf none
  constructor <;> simp [Lookup.start, hnil]

/-- So does one that has read the store. -/
theorem Tracks.opened (l : Lookup) (best : Option WebRecord) : Tracks (l.opened best) := by
  have hmap := reflects_seenOf best
  constructor <;> simp [Lookup.opened, Lookup.blank, Lookup.start, hmap]

/-- So does one that failed to. -/
theorem Tracks.opening (l : Lookup) (fault : Option Fault) : Tracks (l.opening c db fault) := by
  have hblank : Tracks l.blank := .start _ _ _ _
  unfold Lookup.opening
  split
  · exact { hblank with }
  · split
    · exact { hblank with }
    · exact .opened _ _

/-- A slot with something else in it than the one that changes. -/
theorem update_keep {slots : Nat → Slot} {k : Nat} {s slot : Slot} (hk : slots k = s)
    (hj : slots j ≠ s) : Function.update slots j slot k = s := by
  rw [Function.update_of_ne]
  · exact hk
  · rintro rfl
    exact hj hk

/-- A slot with something else in it than what was put. -/
theorem update_back {slots : Nat → Slot} {k : Nat} {s slot : Slot}
    (hk : Function.update slots j slot k = s) (hs : slot ≠ s) : slots k = s := by
  rw [Function.update_apply] at hk
  split at hk
  · exact absurd hk hs
  · exact hk

/-- Only slots of the lookup are filled. -/
theorem update_range {slots : Nat → Slot} {slot : Slot} {n : Nat} (hj : j < n)
    (h : ∀ k, slots k ≠ .fetching → k < n) :
    ∀ k, Function.update slots j slot k ≠ .fetching → k < n := by
  intro k hk
  by_cases hkj : k = j
  · rw [hkj]
    exact hj
  · refine h k ?_
    rwa [Function.update_of_ne hkj] at hk

/-- A fetch settles without a record. -/
theorem Tracks.answered (h : Tracks l) (hj : j < l.apis) (hslot : l.slots j = .fetching)
    {slot : Slot} (hnone : ∀ r, slot ≠ .queued r ∧ slot ≠ .fulfilled (some r)) :
    Tracks (l.setSlot j slot) := by
  exact { h with
    range := update_range hj h.range
    held := by
      intro r' hr'
      rcases h.held r' hr' with ⟨k, hk⟩ | ⟨k, hk⟩ | hf
      · exact .inl ⟨k, update_keep hk (by simp [hslot])⟩
      · exact .inr (.inl ⟨k, update_keep hk (by simp [hslot])⟩)
      · exact .inr (.inr hf)
    parsed := by
      intro k r' hk
      rcases hk with hk | hk
      · exact h.parsed k r' (.inl (update_back hk (hnone r').1))
      · exact h.parsed k r' (.inr (update_back hk (hnone r').2))
    kept := fun k r' hk => h.kept k r' (update_back hk (hnone r').2)
    queued := fun k r' hk => h.queued k r' (update_back hk (hnone r').1)
    running := by
      intro k stage hactive
      obtain ⟨r', hr', hk⟩ := h.running k stage hactive
      exact ⟨r', hr', update_keep hk (by simp [hslot])⟩ }

/-- A fetch settles with a record that goes to the observations, or is the answer. -/
theorem Tracks.received (h : Tracks l) (hj : j < l.apis) (hslot : l.slots j = .fetching)
    {slot : Slot} (hone : (slot = .queued r ∧ l.onRecord = true) ∨
      (slot = .fulfilled (some r) ∧ l.onRecord = false)) (observations : List Nat) :
    Tracks { l.setSlot j slot with observations, parsed := l.parsed ++ [r] } := by
  have hput : ∀ r', slot = .queued r' ∨ slot = .fulfilled (some r') → r' = r := by
    intro r' hr'
    rcases hone with ⟨rfl, -⟩ | ⟨rfl, -⟩ <;> simpa [eq_comm] using hr'
  exact { h with
    range := update_range hj h.range
    held := by
      intro r' hr'
      rcases List.mem_append.mp hr' with hold | hnew
      · rcases h.held r' hold with ⟨k, hk⟩ | ⟨k, hk⟩ | hf
        · exact .inl ⟨k, update_keep hk (by simp [hslot])⟩
        · exact .inr (.inl ⟨k, update_keep hk (by simp [hslot])⟩)
        · exact .inr (.inr hf)
      · rw [List.mem_singleton.mp hnew]
        rcases hone with ⟨rfl, -⟩ | ⟨rfl, -⟩
        · exact .inl ⟨j, Function.update_self ..⟩
        · exact .inr (.inl ⟨j, Function.update_self ..⟩)
    parsed := by
      intro k r' hk
      by_cases hput' : slot = .queued r' ∨ slot = .fulfilled (some r')
      · rw [hput r' hput']
        simp
      · rw [not_or] at hput'
        apply List.mem_append_left
        rcases hk with hk | hk
        · exact h.parsed k r' (.inl (update_back hk hput'.1))
        · exact h.parsed k r' (.inr (update_back hk hput'.2))
    kept := by
      intro k r' hk
      rcases hone with ⟨rfl, -⟩ | ⟨rfl, hoff⟩
      · exact h.kept k r' (update_back hk (by simp))
      · exact .inr (.inr hoff)
    queued := by
      intro k r' hk
      rcases hone with ⟨rfl, hon⟩ | ⟨rfl, -⟩
      · exact hon
      · exact h.queued k r' (update_back hk (by simp))
    running := by
      intro k stage hactive
      obtain ⟨r', hr', hk⟩ := h.running k stage hactive
      exact ⟨r', hr', update_keep hk (by simp [hslot])⟩
    looked := by
      intro r' hr'
      have := h.looked r' hr'
      simp only [List.mem_append] at this ⊢
      tauto }

/-- An answer fills its slot. -/
theorem Tracks.fetched (h : Tracks l) (hj : j < l.apis) (hslot : l.slots j = .fetching)
    (answer : Answer) : Tracks (l.fetched c j answer) := by
  cases answer with
  | absent => exact h.answered hj hslot (by simp)
  | failed => exact h.answered hj hslot (by simp)
  | value v =>
    unfold Lookup.fetched
    dsimp only
    split
    · exact h.answered hj hslot (by simp)
    next r hr =>
      split
      next hon => exact h.received hj hslot (.inl ⟨rfl, hon⟩) _
      next hoff => exact h.received hj hslot (.inr ⟨rfl, by simpa using hoff⟩) _

/-- An observation returns; its record is one of those looked at or skipped. -/
theorem Tracks.returns (h : Tracks l) (hslot : l.slots j = .queued r)
    (hseen : r ∈ l.looked ∨ r ∈ l.skipped) : Tracks (l.returns j r) := by
  have hj : j < l.apis := h.range j (by simp [hslot])
  exact { h with
    range := update_range hj h.range
    held := by
      intro r' hr'
      rcases h.held r' hr' with ⟨k, hk⟩ | ⟨k, hk⟩ | hf
      · by_cases hkj : k = j
        · subst hkj
          obtain rfl : r' = r := by simpa [hk] using hslot
          exact .inr (.inl ⟨k, Function.update_self ..⟩)
        · exact .inl ⟨k, (Function.update_of_ne hkj ..).trans hk⟩
      · exact .inr (.inl ⟨k, update_keep hk (by simp [hslot])⟩)
      · exact .inr (.inr hf)
    parsed := by
      intro k r' hk
      rcases hk with hk | hk
      · exact h.parsed k r' (.inl (update_back hk (by simp)))
      · by_cases hr : r = r'
        · rw [← hr]
          exact h.parsed j r (.inl hslot)
        · exact h.parsed k r' (.inr (update_back hk (by simpa using hr)))
    kept := by
      intro k r' hk
      by_cases hr : r = r'
      · rw [← hr]
        exact hseen.imp_right .inl
      · exact h.kept k r' (update_back hk (by simpa using hr))
    queued := fun k r' hk => h.queued k r' (update_back hk (by simp))
    running := by
      intro k stage hactive
      cases hactive
    calm := fun hactive => absurd rfl hactive
    skipped := fun r' hr' => ⟨(h.skipped r' hr').1, rfl⟩ }

/-- An observation throws; its record had been looked at. -/
theorem Tracks.throws (h : Tracks l) (hslot : l.slots j = .queued r) (hseen : r ∈ l.looked) :
    Tracks (l.throws j r) := by
  have hj : j < l.apis := h.range j (by simp [hslot])
  exact { h with
    range := update_range hj h.range
    held := by
      intro r' hr'
      rcases h.held r' hr' with ⟨k, hk⟩ | ⟨k, hk⟩ | hf
      · by_cases hkj : k = j
        · subst hkj
          obtain rfl : r' = r := by simpa [hk] using hslot
          exact .inr (.inr (by simp [Lookup.throws]))
        · exact .inl ⟨k, (Function.update_of_ne hkj ..).trans hk⟩
      · exact .inr (.inl ⟨k, update_keep hk (by simp [hslot])⟩)
      · exact .inr (.inr (List.mem_append_left _ hf))
    parsed := by
      intro k r' hk
      exact h.parsed k r' (hk.imp (fun hk => update_back hk (by simp))
        fun hk => update_back hk (by simp))
    kept := fun k r' hk => h.kept k r' (update_back hk (by simp))
    queued := fun k r' hk => h.queued k r' (update_back hk (by simp))
    failed := by
      intro r' hr'
      rcases List.mem_append.mp hr' with hold | hnew
      · exact h.failed r' hold
      · rw [List.mem_singleton.mp hnew]
        exact ⟨hseen, h.queued j r hslot⟩
    running := by
      intro k stage hactive
      cases hactive
    calm := fun hactive => absurd rfl hactive
    skipped := fun r' hr' => ⟨(h.skipped r' hr').1, rfl⟩ }

/-- The synchronous part of an observation. -/
theorem Tracks.observe (h : Tracks l) (hidle : l.active = none) (hslot : l.slots j = .queued r) :
    Tracks (l.observe j r) := by
  have hparsed : r ∈ l.parsed := h.parsed j r (.inl hslot)
  have hlooked : ∀ r' ∈ l.looked ++ [r], r' ∈ l.best.toList ++ l.parsed := by
    intro r' hr'
    rcases List.mem_append.mp hr' with hold | hnew
    · exact h.looked r' hold
    · rw [List.mem_singleton.mp hnew]
      exact List.mem_append_right _ hparsed
  unfold Lookup.observe
  split
  -- After an abort the record is skipped, and only returned.
  next habort =>
    have h' : Tracks { l with skipped := l.skipped ++ [r] } := { h with
      kept := fun k r' hk => (h.kept k r' hk).imp_right (.imp_left (List.mem_append_left _))
      skipped := fun _ _ => ⟨habort, hidle⟩ }
    exact h'.returns hslot (.inr (by simp))
  next habort =>
    have hgrow : ∀ r' ∈ l.looked, r' ∈ l.looked ++ [r] := fun r' hr' => List.mem_append_left _ hr'
    split
    -- A record that clashes is a conflict from here on.
    next hclash =>
      have h' : Tracks { l with conflict := true, looked := l.looked ++ [r] } := { h with
        kept := fun k r' hk => (h.kept k r' hk).imp_left (hgrow r')
        failed := fun r' hr' => (h.failed r' hr').imp_left (hgrow r')
        running := fun k stage hactive => by
          rw [show l.active = some (k, stage) from hactive] at hidle
          cases hidle
        calm := fun hactive => absurd hidle hactive
        map := fun hcalm => by cases hcalm
        clash := fun _ => by
          cases hc : l.conflict with
          | false => exact (h.map hc).clash hclash
          | true => exact (h.clash hc).mono hgrow
        best := fun b hb => (h.best b hb).imp_left (hgrow b)
        looked := hlooked }
      exact h'.returns hslot (.inl (by simp))
    next hclash =>
      have hclash : clashes l.streamed r = false := by simpa using hclash
      split
      -- After a conflict the record is marked, but nobody is called.
      next hconflict =>
        have h' : Tracks { l with streamed := mark l.streamed r, looked := l.looked ++ [r] } :=
          { h with
            kept := fun k r' hk => (h.kept k r' hk).imp_left (hgrow r')
            failed := fun r' hr' => (h.failed r' hr').imp_left (hgrow r')
            running := fun k stage hactive => by
              rw [show l.active = some (k, stage) from hactive] at hidle
              cases hidle
            map := fun hcalm => by
              rw [show l.conflict = false from hcalm] at hconflict
              cases hconflict
            clash := fun hc => (h.clash hc).mono hgrow
            best := fun b hb => (h.best b hb).imp_left (hgrow b)
            looked := hlooked }
        exact h'.returns hslot (.inl (by simp))
      -- Otherwise it is read and stored next.
      next hconflict =>
        have hcalm : l.conflict = false := by simpa using hconflict
        exact { h with
          kept := fun k r' hk => (h.kept k r' hk).imp_left (hgrow r')
          failed := fun r' hr' => (h.failed r' hr').imp_left (hgrow r')
          running := fun k stage hactive => by
            obtain ⟨rfl, -⟩ : j = k ∧ Stage.reading = stage := by simpa using hactive
            exact ⟨r, by simp, hslot⟩
          calm := fun _ => hcalm
          map := fun _ => (h.map hcalm).mark hclash
          clash := fun hc => (h.clash hc).mono hgrow
          best := fun b hb => (h.best b hb).imp_left (hgrow b)
          looked := hlooked
          skipped := fun r' hr' => absurd (h.skipped r' hr').1 habort }

/-- The record of the running observation was looked at. -/
theorem Tracks.ran (h : Tracks l) {stage : Stage} (hactive : l.active = some (j, stage))
    (hslot : l.slots j = .queued r) : r ∈ l.looked := by
  obtain ⟨r', hr', hslot'⟩ := h.running j stage hactive
  obtain rfl : r' = r := by simpa [hslot] using hslot'.symm
  exact hr'

/-- A read is counted. -/
theorem Tracks.read (h : Tracks l) {stage : Stage} (hactive : l.active = some (j, stage))
    (hslot : l.slots j = .queued r) (fault : Option Fault) : Tracks (l.read c db j r fault) := by
  have hr := h.ran hactive hslot
  unfold Lookup.read
  split
  · exact h.throws hslot hr
  · exact { h with
      running := fun k stage' hk => by
        obtain ⟨rfl, -⟩ : j = k ∧ _ := by simpa using hk
        exact ⟨r, hr, hslot⟩
      calm := fun _ => h.calm (by simp [hactive])
      best := fun b hb => (h.best b hb).imp_right (List.mem_append_left _)
      skipped := fun s hs => by
        have := (h.skipped s hs).2
        rw [hactive] at this
        cases this }

/-- The record at work moves on. -/
theorem Tracks.stage (h : Tracks l) {stage : Stage} (stage' : Stage)
    (hactive : l.active = some (j, stage)) :
    Tracks { l with active := some (j, stage') } := { h with
  running := fun k st hk => by
    obtain ⟨rfl, -⟩ : j = k ∧ _ := by simpa using hk
    exact h.running j stage hactive
  calm := fun _ => h.calm (by simp [hactive])
  skipped := fun s hs => by
    have := (h.skipped s hs).2
    rw [hactive] at this
    cases this }

/-- A write is counted. -/
theorem Tracks.store (h : Tracks l) {stage : Stage} (hactive : l.active = some (j, stage))
    (hslot : l.slots j = .queued r) (fault : Option Fault) :
    Tracks (l.store c db j r fault).2 := by
  have hr := h.ran hactive hslot
  unfold Lookup.store
  split
  · exact h.throws hslot hr
  · unfold Lookup.wrote
    split
    · exact h.throws hslot hr
    · exact { h.stage .notifying hactive with }

/-- After `allSettled` only the phase, and what was read, change. -/
theorem Tracks.ending (h : Tracks l) (phase : Phase) (more : List WebRecord) (faulted : Bool) :
    Tracks { l with phase, durables := l.durables ++ more, faulted } := { h with
  best := fun b hb => (h.best b hb).imp_right (List.mem_append_left _) }

/-- The final pass keeps track. -/
theorem Tracks.settle (h : Tracks l) : Tracks l.settle := by
  unfold Lookup.settle
  split
  · exact { h with }
  · split
    · exact { h with }
    · split
      · exact { h with }
      · exact { h with }
      · split
        · exact { h with }
        · exact { h with }

/-- So does the last write. -/
theorem Tracks.finish (h : Tracks l) (best : WebRecord) (fault : Option Fault) :
    Tracks (l.finish c db best fault).2 := by
  unfold Lookup.finish
  split
  · exact h.ending _ _ _
  · exact h.ending _ _ l.faulted

/-- **Every step of a lookup keeps its books.** -/
theorem Tracks.step (h : Tracks l) {m : Move} {db' : Database} {l' : Lookup}
    (hm : l.step c db m = some (db', l')) : Tracks l' := by
  cases step_took hm with
  | opening fault hp => exact .opening l fault
  | refuse hp => exact { h with }
  | cancel hp => exact { h with skipped := fun r hr => ⟨rfl, (h.skipped r hr).2⟩ }
  | timeout hp => exact { h with skipped := fun r hr => ⟨rfl, (h.skipped r hr).2⟩ }
  | fetched j answer hp hj hslot => exact h.fetched hj hslot answer
  | observe j rest r hp hidle hfirst hslot =>
    have h' : Tracks { l with observations := rest } := { h with }
    exact h'.observe hidle hslot
  | read j r fault hp hactive hslot => exact h.read hactive hslot fault
  | store j r fault hp hactive hslot => exact h.store hactive hslot fault
  | notify j r hp hactive hslot => exact { h.stage .returning hactive with }
  | returns j r hp hactive hslot => exact h.returns hslot (.inl (h.ran hactive hslot))
  | throws j r hp hactive hslot => exact h.throws hslot (h.ran hactive hslot)
  | settle hp hall => exact h.settle
  | finish best fault hp => exact h.finish best fault

end Tracks

end My98.Web.Records
