/-
  My98.Web.WindowInvariant — what the startup jobs of a torrent do to its selections.

  A selection whose `notify` is a function of a job is in the list only while that job OWNS it, and each
  function is in the list at most once.  So a job has no more selections than it owns, and none when it
  owns none; and as it looks for its own functions only, it takes out nobody else's.

    • `JobOk`, `Inv`  — what holds between any two steps;
    • `Moved`         — all that one step of a job can do to the list (`JobOk.advances`);
    • `Quiet`         — the steps that leave the list alone;
    • `inv_step`      — one step of the torrent, and what it does to every job;
    • `window_owned`  — every run.
-/
import Mathlib
import My98.Web.StartupWindow

namespace My98.Web.StartupWindow

open My98.Lib My98.Web.LoadProfiles My98.Web.Startup

/-! ## §1. The invariant. -/

/-- What no step but those of `owned` and of `_select` changes. -/
def Job.core (j : Job) : List (ℚ × ℚ) × ℤ × List ℤ × List (ℤ × Nat) × List (ℤ × Nat) :=
  (j.ranges, j.windowPieces, j.indices, j.owned, j.selected)

/-- What the job can still own there. -/
def PcOk (owned : List (ℤ × Nat)) : Pc → Prop
  | .checking => owned = []
  | .closing left => ∀ p ∈ owned, p.1 ∈ left
  | .settled => owned = []
  | _ => True

/-- What is so of a job. -/
structure JobOk (t : Torrent) (j : Job) : Prop where
  window : (j.owned.length : ℤ) ≤ j.windowPieces
  targets : startupTargets j.ranges t.size = some j.indices
  owned : j.owned.Sublist j.selected
  taken : (j.selected.map Prod.fst).Sublist (j.indices.take j.next)
  made : ∀ p ∈ j.selected, p.2 < t.owners
  owners : (j.selected.map Prod.snd).Nodup
  pc : PcOk j.owned j.pc
  result : ∀ v, j.outcome = some (.ok v) →
    v = (targetTotal t.size j.indices, targetTotal t.size j.indices)

/-- Two jobs have no function in common. -/
def Apart (a b : Job) : Prop := ∀ p ∈ a.selected, ∀ q ∈ b.selected, p.2 ≠ q.2

/-- The function of a startup job that the selection has. -/
def Selection.owner? (s : Selection) : Option Nat :=
  match s.notify with
  | .owner n => some n
  | .other _ => none

structure Inv (e : Entry) : Prop where
  jobs : ∀ (k : Nat) (j : Job), e.jobs[k]? = some j → JobOk e.torrent j
  apart : ∀ (i k : Nat) (a b : Job), e.jobs[i]? = some a → e.jobs[k]? = some b → i ≠ k → Apart a b
  once : (e.torrent.selections.filterMap Selection.owner?).Nodup
  held : ∀ n ∈ e.torrent.selections.filterMap Selection.owner?,
    ∃ (k : Nat) (j : Job) (p : ℤ × Nat), e.jobs[k]? = some j ∧ p ∈ j.owned ∧ p.2 = n
  gone : e.torrent.destroyed = true → e.torrent.selections.filterMap Selection.owner? = []

/-- A torrent without jobs. -/
theorem inv_start (size : Nat) (bitfield : ℤ → Bool) : Inv (Entry.start size bitfield) := by
  refine ⟨fun k j h => ?_, fun i k a b h => ?_, List.nodup_nil, fun n h => ?_, fun _ => rfl⟩
  · cases h
  · cases h
  · cases h

/-! ## §2. One step of a job. -/

/-- What one step of a job can do to the torrent's list. -/
inductive Moved (t : Torrent) (j : Job) (t' : Torrent) (j' : Job) : Prop
  | keeps (hselections : t'.selections = t.selections) (howned : j'.owned = j.owned)
      (hselected : j'.selected = j.selected)
  /-- A release. -/
  | drops (i : ℤ) (n : Nat) (hmem : (i, n) ∈ j.owned)
      (howned : j'.owned = j.owned.filter fun p => p.1 ≠ i) (hselected : j'.selected = j.selected)
      (hselections : t'.selections =
        if t.destroyed then t.selections else t.selections.eraseP fun s => s.notify = .owner n)
  /-- A selection. -/
  | adds (i : ℤ) (hmem : i ∈ j.indices) (hnew : t.bitfield i = false)
      (howned : j'.owned = j.owned ++ [(i, t.owners)])
      (hselected : j'.selected = j.selected ++ [(i, t.owners)]) (howners : t'.owners = t.owners + 1)
      (hselections : t'.selections = t.selections ∨
        t.destroyed = false ∧ t'.selections = t.selections ++ [pieceSelection i t.owners])

/-- What every step of a job leaves as it is. -/
structure Same (t : Torrent) (j : Job) (t' : Torrent) (j' : Job) : Prop where
  size : t'.size = t.size
  destroyed : t'.destroyed = t.destroyed
  owners : t.owners ≤ t'.owners
  bitfield : t'.bitfield = t.bitfield
  indices : j'.indices = j.indices
  windowPieces : j'.windowPieces = j.windowPieces

/-- It resolves with every piece verified. -/
def Resolves (t : Torrent) (j j' : Job) : Prop :=
  ∀ v, j'.outcome = some (.ok v) → j.outcome = some (.ok v) ∨ ∀ i ∈ j.indices, t.bitfield i = true

/-- **One step of a job**, as its torrent and the other jobs see it. -/
structure Stepped (t : Torrent) (j : Job) (t' : Torrent) (j' : Job) : Prop where
  ok : JobOk t' j'
  moved : Moved t j t' j'
  same : Same t j t' j'
  resolves : Resolves t j j'

section Steps

variable {t : Torrent} {j j' : Job}

/-- The same job, of a torrent that has grown. -/
theorem JobOk.grows {t' : Torrent} (h : JobOk t j) (hsize : t'.size = t.size)
    (howners : t.owners ≤ t'.owners) : JobOk t' j := by
  refine ⟨h.window, ?_, h.owned, h.taken, fun p hp => (h.made p hp).trans_le howners, h.owners, h.pc, ?_⟩
  · rw [hsize]
    exact h.targets
  · rw [hsize]
    exact h.result

/-- **A step that leaves the selections alone.** -/
theorem JobOk.steps (h : JobOk t j) (cacheChecks : List ℤ) (hcore : j'.core = j.core)
    (hnext : j.next ≤ j'.next) (hpc : PcOk j.owned j'.pc)
    (hresult : ∀ v, j'.outcome = some (.ok v) → j.outcome = some (.ok v) ∨
      (∀ i ∈ j.indices, t.bitfield i = true) ∧
        v = (targetTotal t.size j.indices, targetTotal t.size j.indices)) :
    Stepped t j { t with cacheChecks } j' := by
  obtain ⟨hranges, hcore⟩ := Prod.mk.inj hcore
  obtain ⟨hwindow, hcore⟩ := Prod.mk.inj hcore
  obtain ⟨hindices, hcore⟩ := Prod.mk.inj hcore
  obtain ⟨howned, hselected⟩ := Prod.mk.inj hcore
  refine ⟨⟨?_, ?_, ?_, ?_, fun p hp => ?_, ?_, ?_, fun v hv => ?_⟩, .keeps rfl howned hselected,
    ⟨rfl, rfl, le_rfl, rfl, hindices, hwindow⟩, fun v hv => ?_⟩
  · rw [howned, hwindow]
    exact h.window
  · rw [hranges, hindices]
    exact h.targets
  · rw [howned, hselected]
    exact h.owned
  · rw [hselected, hindices]
    exact h.taken.trans (List.take_sublist_take_left hnext)
  · rw [hselected] at hp
    exact h.made p hp
  · rw [hselected]
    exact h.owners
  · rw [howned]
    exact hpc
  · rw [hindices]
    rcases hresult v hv with hold | ⟨-, hv⟩
    · exact h.result v hold
    · exact hv
  · exact (hresult v hv).imp id fun hnew => hnew.1

/-- A report does not touch what a job owns. -/
theorem core_report (t : Torrent) (j : Job) : (report t j).core = j.core := by
  unfold report
  dsimp only
  split <;> rfl

/-- Nor its outcome, its place and what it does next. -/
theorem report_frame (t : Torrent) (j : Job) : (report t j).outcome = j.outcome ∧
    (report t j).next = j.next ∧ (report t j).pc = j.pc ∧ (report t j).again = j.again := by
  unfold report
  dsimp only
  split
  · exact ⟨rfl, rfl, rfl, rfl⟩
  · exact ⟨rfl, rfl, rfl, rfl⟩

/-- The end of a job leaves what it owns. -/
theorem finish_frame (j : Job) (outcome : Outcome) : (j.finish outcome).core = j.core ∧
    (j.finish outcome).next = j.next ∧ (j.finish outcome).pc = j.pc := by
  unfold Job.finish
  split
  · exact ⟨rfl, rfl, rfl⟩
  · exact ⟨rfl, rfl, rfl⟩

/-- It sets an outcome where there was none. -/
theorem finish_outcome {j : Job} {outcome o : Outcome} (h : (j.finish outcome).outcome = some o) :
    j.outcome = some o ∨ o = outcome := by
  unfold Job.finish at h
  split at h
  · exact Or.inl h
  · exact Or.inr (Option.some.inj h).symm

/-- An error is no result. -/
theorem finish_error {j : Job} {code : String} {v : ℤ × ℤ}
    (h : (j.finish (.error code)).outcome = some (.ok v)) : j.outcome = some (.ok v) := by
  rcases finish_outcome h with h | h
  · exact h
  · cases h

/-- A job that is stopped keeps its place. -/
theorem stop_frame (j : Job) (code : String) :
    (j.stop code).core = j.core ∧ (j.stop code).next = j.next := by
  obtain ⟨hcore, hnext, -⟩ := finish_frame j (.error code)
  exact ⟨hcore, hnext⟩

/-- It did not get its result by being stopped. -/
theorem stop_outcome (j : Job) (code : String) (v : ℤ × ℤ) (h : (j.stop code).outcome = some (.ok v)) :
    j.outcome = some (.ok v) := finish_error h

/-- **A release.** -/
theorem JobOk.releases (h : JobOk t j) (index : ℤ) {pc : Pc}
    (hpc : PcOk (j.owned.filter fun p => p.1 ≠ index) pc) :
    Stepped t j (release t { j with pc } index).1 (release t { j with pc } index).2 := by
  have hsub : (j.owned.filter fun p => p.1 ≠ index).Sublist j.owned := List.filter_sublist
  unfold release
  cases hfind : j.owned.find? fun p => p.1 = index with
  | none =>
    have hall : (j.owned.filter fun p => p.1 ≠ index) = j.owned := by
      rw [List.filter_eq_self]
      intro p hp
      have hno := List.find?_eq_none.mp hfind p hp
      exact decide_eq_true (mt (decide_eq_true (p := p.1 = index)) hno)
    exact h.steps t.cacheChecks rfl le_rfl (hall ▸ hpc) fun v hv => Or.inl hv
  | some p =>
    have hmem := List.mem_of_find?_eq_some hfind
    have hyes := List.find?_some hfind
    have hindex : p.1 = index := of_decide_eq_true hyes
    have hmem' : (index, p.2) ∈ j.owned := by
      rw [← hindex]
      exact hmem
    have hlength : ((j.owned.filter fun p => p.1 ≠ index).length : ℤ) ≤ j.windowPieces :=
      (Int.ofNat_le.mpr hsub.length_le).trans h.window
    dsimp only
    split
    next hdestroyed =>
      refine ⟨⟨hlength, h.targets, hsub.trans h.owned, h.taken, h.made, h.owners, hpc, h.result⟩,
        .drops index p.2 hmem' rfl rfl ?_, ⟨rfl, rfl, le_rfl, rfl, rfl, rfl⟩, fun v hv => Or.inl hv⟩
      rw [hdestroyed]
      rfl
    next hdestroyed =>
      refine ⟨⟨hlength, h.targets, hsub.trans h.owned, h.taken, h.made, h.owners, hpc, h.result⟩,
        .drops index p.2 hmem' rfl rfl ?_, ⟨rfl, rfl, le_rfl, rfl, rfl, rfl⟩, fun v hv => Or.inl hv⟩
      rw [if_neg hdestroyed]
      rfl

/-- **A selection**, of the next target. -/
theorem JobOk.selects (h : JobOk t j) {index : ℤ} (hindex : j.indices[j.next]? = some index)
    (hroom : (j.owned.length : ℤ) < j.windowPieces) (hnew : t.bitfield index = false)
    (hpc : PcOk (j.owned ++ [(index, t.owners)]) j.pc) (throws : Option String) :
    Stepped t j (select t { j with next := j.next + 1 } index throws).1
      (select t { j with next := j.next + 1 } index throws).2 := by
  have hmem : index ∈ j.indices := List.mem_of_getElem? hindex
  have hlength : (((j.owned ++ [(index, t.owners)]).length : Nat) : ℤ) ≤ j.windowPieces := by
    rw [List.length_append, List.length_singleton]
    push_cast
    omega
  -- The piece is the next one of the job's list.
  have htaken : ((j.selected ++ [(index, t.owners)]).map Prod.fst).Sublist
      (j.indices.take (j.next + 1)) := by
    rw [List.map_append, List.take_add_one, hindex]
    exact h.taken.append (List.Sublist.refl _)
  have hmade : ∀ p ∈ j.selected ++ [(index, t.owners)], p.2 < t.owners + 1 := by
    intro p hp
    rcases List.mem_append.mp hp with hp | hp
    · exact (h.made p hp).trans (Nat.lt_succ_self _)
    · rw [List.mem_singleton.mp hp]
      exact Nat.lt_succ_self _
  -- Its function has a number that was not given out before.
  have howners : ((j.selected ++ [(index, t.owners)]).map Prod.snd).Nodup := by
    rw [List.map_append, List.nodup_append]
    refine ⟨h.owners, List.nodup_singleton _, fun n hn m hm heq => ?_⟩
    obtain ⟨p, hp, rfl⟩ := List.mem_map.mp hn
    rw [List.mem_singleton.mp hm] at heq
    exact absurd heq (h.made p hp).ne
  have howned := h.owned.append (List.Sublist.refl [(index, t.owners)])
  unfold select
  dsimp only
  split
  -- A `select` that throws has added nothing to the list, but the job owns the function.
  next code hthrows =>
    obtain ⟨hcore, hnext⟩ := stop_frame (Job.own { j with next := j.next + 1 } index t.owners) code
    obtain ⟨hranges, hcore⟩ := Prod.mk.inj hcore
    obtain ⟨hwindow, hcore⟩ := Prod.mk.inj hcore
    obtain ⟨hindices, hcore⟩ := Prod.mk.inj hcore
    obtain ⟨ho, hs⟩ := Prod.mk.inj hcore
    refine ⟨⟨?_, ?_, ?_, ?_, fun p hp => ?_, ?_, trivial, fun v hv => ?_⟩,
      .adds index hmem hnew ho hs rfl (Or.inl rfl), ⟨rfl, rfl, Nat.le_succ _, rfl, hindices, hwindow⟩,
      fun v hv => ?_⟩
    · rw [ho, hwindow]
      exact hlength
    · rw [hranges, hindices]
      exact h.targets
    · rw [ho, hs]
      exact howned
    · rw [hs, hindices, hnext]
      exact htaken
    · rw [hs] at hp
      exact hmade p hp
    · rw [hs]
      exact howners
    · have hold := stop_outcome _ code v hv
      rw [hindices]
      exact h.result v hold
    · have hold := stop_outcome _ code v hv
      exact Or.inl hold
  next hthrows =>
    have halive : t.destroyed = false := by
      cases hd : t.destroyed with
      | false => rfl
      | true =>
        rw [hd, if_pos rfl] at hthrows
        cases hthrows
    exact ⟨⟨hlength, h.targets, howned, htaken, hmade, howners, hpc, h.result⟩,
      .adds index hmem hnew rfl rfl rfl (Or.inr ⟨halive, rfl⟩), ⟨rfl, rfl, Nat.le_succ _, rfl, rfl, rfl⟩,
      fun v hv => Or.inl hv⟩

/-- **The end of a turn.** -/
theorem JobOk.endTurn (h : JobOk t j) : Stepped t j t (endTurn t j) := by
  have hpos := (targets_of_startupTargets h.targets).2
  unfold StartupWindow.endTurn
  dsimp only
  split
  next hall =>
    obtain ⟨hc₁, hn₁, -⟩ := finish_frame (report t j) (.ok (snapshot t j.indices))
    obtain ⟨ho₂, hn₂, -⟩ := report_frame t ((report t j).finish (.ok (snapshot t j.indices)))
    obtain ⟨ho₀, hn₀, -⟩ := report_frame t j
    refine h.steps t.cacheChecks ((core_report _ _).trans (hc₁.trans (core_report _ _)))
      (hn₂.trans (hn₁.trans hn₀)).ge ?_ fun v hv => ?_
    · dsimp only
      split <;> trivial
    · have hv' : (report t ((report t j).finish (.ok (snapshot t j.indices)))).outcome = some (.ok v) := hv
      rw [ho₂] at hv'
      rcases finish_outcome hv' with hold | hv'
      · rw [ho₀] at hold
        exact Or.inl hold
      · refine Or.inr ⟨(snapshot_eq hpos).mp hall, ?_⟩
        rw [Except.ok.inj hv']
        exact Prod.ext hall rfl
  · obtain ⟨ho₀, hn₀, -⟩ := report_frame t j
    refine h.steps t.cacheChecks (core_report _ _) hn₀.ge ?_ fun v hv => ?_
    · dsimp only
      split <;> trivial
    · have hv' : (report t j).outcome = some (.ok v) := hv
      rw [ho₀] at hv'
      exact Or.inl hv'

/-- What comes after a release is not released again. -/
theorem left_of_filter {owned : List (ℤ × Nat)} {index : ℤ} {left : List ℤ}
    (h : ∀ p ∈ owned, p.1 ∈ index :: left) : ∀ p ∈ owned.filter fun p => p.1 ≠ index, p.1 ∈ left := by
  intro p hp
  obtain ⟨hmem, hne⟩ := List.mem_filter.mp hp
  rcases List.mem_cons.mp (h p hmem) with heq | hleft
  · exact absurd heq (of_decide_eq_true hne)
  · exact hleft

/-- **A step of `pump`, or of `finally`.** -/
theorem JobOk.advances (h : JobOk t j) {throws : Option String} {x : Torrent × Job}
    (hstep : advance t j throws = some x) : Stepped t j x.1 x.2 := by
  have hkeep : ∀ v, j.outcome = some (.ok v) → j.outcome = some (.ok v) ∨
      (∀ i ∈ j.indices, t.bitfield i = true) ∧
        v = (targetTotal t.size j.indices, targetTotal t.size j.indices) := fun v hv => Or.inl hv
  unfold advance at hstep
  split at hstep
  next hpc =>
    dsimp only at hstep
    split at hstep
    next code habort =>
      rw [← Option.some.inj hstep]
      obtain ⟨hcore, hnext⟩ := stop_frame { j with again := false } code
      refine h.steps t.cacheChecks hcore hnext.ge trivial fun v hv => ?_
      have hold := stop_outcome _ code v hv
      exact Or.inl hold
    · rw [← Option.some.inj hstep]
      exact h.steps t.cacheChecks rfl le_rfl trivial hkeep
  next index left hpc =>
    rw [← Option.some.inj hstep]
    split
    · exact h.releases index trivial
    · exact h.steps t.cacheChecks rfl le_rfl trivial hkeep
  next hpc =>
    rw [← Option.some.inj hstep]
    exact h.steps t.cacheChecks rfl le_rfl trivial hkeep
  next hpc =>
    split at hstep
    next index hindex =>
      split at hstep
      next hroom =>
        rw [← Option.some.inj hstep]
        split
        · exact h.steps t.cacheChecks rfl (Nat.le_succ _) (hpc ▸ trivial) hkeep
        next hnew => exact h.selects hindex hroom (Bool.not_eq_true _ ▸ hnew) (hpc ▸ trivial) throws
      · rw [← Option.some.inj hstep]
        exact h.endTurn
    · rw [← Option.some.inj hstep]
      exact h.endTurn
  next index left hpc =>
    rw [← Option.some.inj hstep]
    have hleft : ∀ p ∈ j.owned, p.1 ∈ index :: left := by
      have hok := h.pc
      rw [hpc] at hok
      exact hok
    exact h.releases index (left_of_filter hleft)
  next hpc =>
    rw [← Option.some.inj hstep]
    have hempty : j.owned = [] := by
      have hok := h.pc
      rw [hpc] at hok
      rw [List.eq_nil_iff_forall_not_mem]
      intro p hp
      exact absurd (hok p hp) List.not_mem_nil
    exact h.steps t.cacheChecks rfl le_rfl hempty hkeep
  · cases hstep

/-! ## §3. What the torrent and the other jobs do to a job. -/

/-- A step that takes nothing, and does not resolve. -/
structure Quiet (j j' : Job) : Prop where
  core : j'.core = j.core
  next : j'.next = j.next
  pc : PcOk j.owned j.pc → PcOk j.owned j'.pc
  outcome : ∀ v, j'.outcome = some (.ok v) → j.outcome = some (.ok v)

/-- Quiet steps may follow each other. -/
theorem Quiet.trans {j'' : Job} (h : Quiet j j') (h' : Quiet j' j'') : Quiet j j'' := by
  have howned : j'.owned = j.owned := by
    have hcore := h.core
    unfold Job.core at hcore
    simp only [Prod.mk.injEq] at hcore
    exact hcore.2.2.2.1
  refine ⟨h'.core.trans h.core, h'.next.trans h.next, fun hpc => ?_, fun v hv => h.outcome v (h'.outcome v hv)⟩
  have hpc' := h.pc hpc
  rw [← howned] at hpc' ⊢
  exact h'.pc hpc'

/-- **A quiet step of a job**, while its torrent checks a piece. -/
theorem JobOk.quiet (h : JobOk t j) (hq : Quiet j j') (cacheChecks : List ℤ) :
    Stepped t j { t with cacheChecks } j' :=
  h.steps cacheChecks hq.core hq.next.ge (hq.pc h.pc) fun v hv => Or.inl (hq.outcome v hv)

/-- Waking a job is quiet. -/
theorem quiet_pump (j : Job) : Quiet j j.pump := by
  unfold Job.pump
  split
  · exact ⟨rfl, rfl, id, fun v hv => hv⟩
  · split
    · exact ⟨rfl, rfl, fun _ => trivial, fun v hv => hv⟩
    · exact ⟨rfl, rfl, id, fun v hv => hv⟩

/-- So is a verified piece. -/
theorem quiet_verified (index : ℤ) (j : Job) : Quiet j (j.verified index) := by
  unfold Job.verified
  split
  · exact quiet_pump j
  · exact ⟨rfl, rfl, id, fun v hv => hv⟩

/-- So is an abort. -/
theorem quiet_abort (code : String) (j : Job) : Quiet j (j.abort code) := by
  unfold Job.abort
  split
  · exact ⟨rfl, rfl, id, fun v hv => hv⟩
  · dsimp only
    split
    · obtain ⟨hcore, hnext, hpc⟩ := finish_frame { j with aborted := some code } (.error code)
      refine ⟨hcore, hnext, fun h => ?_, fun v hv => ?_⟩
      · rw [hpc]
        exact h
      · have hold := finish_error hv
        exact hold
    · exact ⟨rfl, rfl, id, fun v hv => hv⟩

/-- So is an error. -/
theorem quiet_throw (j : Job) (code : String) : Quiet j (j.throw code) := by
  obtain ⟨hcore, hnext, -⟩ := finish_frame j (.error code)
  exact ⟨hcore, hnext, fun _ p hp => List.mem_map_of_mem hp, fun v hv => finish_error hv⟩

/-- So is a report. -/
theorem quiet_report (t : Torrent) (j : Job) : Quiet j (report t j) := by
  obtain ⟨houtcome, hnext, hpc, -⟩ := report_frame t j
  refine ⟨core_report t j, hnext, fun h => ?_, fun v hv => ?_⟩
  · rw [hpc]
    exact h
  · rw [← houtcome]
    exact hv

/-- So is what the workers do among themselves. -/
theorem quiet_workers (j : Job) (workers : List Worker) (cursor : Nat) : Quiet j { j with workers, cursor } :=
  ⟨rfl, rfl, id, fun _ hv => hv⟩

/-- So is a worker that fails. -/
theorem quiet_fail (j : Job) (w : Nat) (code : String) : Quiet j (j.fail w code) := by
  have hworkers := quiet_workers j (j.workers.set w .returned) j.cursor
  unfold Job.fail
  dsimp only
  split
  · exact hworkers.trans (quiet_throw _ code)
  · exact hworkers

/-- **A turn of a worker.** -/
theorem quiet_work {w : Nat} {worker : Worker} {x : Torrent × Job × Option ℤ}
    (h : work t j w worker = some x) :
    Quiet j x.2.1 ∧ ∃ cacheChecks, x.1 = { t with cacheChecks } := by
  have hcursor := quiet_workers j j.workers (j.cursor + 1)
  have hset : ∀ (i : Job) (next : Worker), Quiet i (i.setWorker w next) := fun i next =>
    quiet_workers i (i.workers.set w next) i.cursor
  unfold work at h
  split at h
  · dsimp only at h
    split at h
    · rw [← Option.some.inj h]
      exact ⟨hcursor.trans (hset _ _), t.cacheChecks, rfl⟩
    · split at h
      · rw [← Option.some.inj h]
        exact ⟨hcursor.trans (quiet_fail _ w _), t.cacheChecks, rfl⟩
      · split at h
        · rw [← Option.some.inj h]
          exact ⟨hcursor, t.cacheChecks, rfl⟩
        · rw [← Option.some.inj h]
          refine ⟨hcursor.trans (hset _ _), ?_⟩
          split
          · exact ⟨t.cacheChecks, rfl⟩
          · exact ⟨_, rfl⟩
  · obtain ⟨code, -, rfl⟩ := Option.map_eq_some_iff.mp h
    exact ⟨quiet_fail j w code, t.cacheChecks, rfl⟩
  · split at h
    · rw [← Option.some.inj h]
      exact ⟨quiet_fail j w _, t.cacheChecks, rfl⟩
    · split at h
      · rw [← Option.some.inj h]
        exact ⟨quiet_fail j w _, t.cacheChecks, rfl⟩
      · split at h
        · rw [← Option.some.inj h]
          exact ⟨quiet_fail j w _, t.cacheChecks, rfl⟩
        · rw [← Option.some.inj h]
          exact ⟨hset j _, t.cacheChecks, rfl⟩
  · cases h

/-- So is a check that passes. -/
theorem quiet_checked (h : j.checked t = some j') : Quiet j j' := by
  unfold Job.checked at h
  split at h
  · split at h
    next code _ =>
      rw [← Option.some.inj h]
      exact quiet_throw j code
    · rw [← Option.some.inj h]
      have hpumps : Quiet (report t j) { report t j with pc := .top } :=
        ⟨rfl, rfl, fun _ => trivial, fun v hv => hv⟩
      exact (quiet_report t j).trans hpumps
  · cases h

end Steps

/-! ## §4. One step of the torrent. -/

section Entries

variable {e e' : Entry} {t : Torrent} {j j' : Job} {k : Nat}

/-- A job selects no piece twice. -/
theorem nodup_keys (h : JobOk t j) : (j.selected.map Prod.fst).Nodup :=
  (h.taken.trans (List.take_sublist _ _)).nodup (targets_of_startupTargets h.targets).1

/-- Erasing passes over selections of others. -/
theorem eraseP_skip {s : Selection} {n : Nat} (l : List Selection) (hs : s.notify ≠ .owner n) :
    ((s :: l).eraseP fun s => s.notify = .owner n) = s :: l.eraseP fun s => s.notify = .owner n :=
  List.eraseP_cons_of_neg fun hyes => hs (of_decide_eq_true hyes)

/-- The first selection with a function is taken out. -/
theorem filterMap_eraseP (l : List Selection) (n : Nat) :
    (l.eraseP fun s => s.notify = .owner n).filterMap Selection.owner? =
      (l.filterMap Selection.owner?).erase n := by
  induction l with
  | nil => rfl
  | cons s l ih =>
    cases hs : s.notify with
    | owner m =>
      have howner : s.owner? = some m := by
        unfold Selection.owner?
        rw [hs]
      by_cases hm : m = n
      · subst hm
        rw [List.eraseP_cons_of_pos (by rw [hs]; exact decide_eq_true rfl), List.filterMap_cons_some howner,
          List.erase_cons_head]
      · have hne : s.notify ≠ .owner n := fun heq => hm (Notify.owner.inj (hs.symm.trans heq))
        rw [eraseP_skip l hne, List.filterMap_cons_some howner, List.filterMap_cons_some howner,
          List.erase_cons_tail (by simpa using hm), ih]
    | other m =>
      have howner : s.owner? = none := by
        unfold Selection.owner?
        rw [hs]
      have hne : s.notify ≠ .owner n := fun heq => by cases hs.symm.trans heq
      rw [eraseP_skip l hne, List.filterMap_cons_none howner, List.filterMap_cons_none howner, ih]

/-- Nobody who does not look at it misses it. -/
theorem filter_eraseP {q : Selection → Bool} {n : Nat} (hq : ∀ s, s.notify = .owner n → q s = false)
    (l : List Selection) : (l.eraseP fun s => s.notify = .owner n).filter q = l.filter q := by
  induction l with
  | nil => rfl
  | cons s l ih =>
    by_cases hs : s.notify = .owner n
    · have htake : ((s :: l).eraseP fun s => s.notify = .owner n) = l :=
        List.eraseP_cons_of_pos (decide_eq_true hs)
      rw [htake, List.filter_cons_of_neg]
      rw [hq s hs]
      exact Bool.false_ne_true
    · rw [eraseP_skip l hs, List.filter_cons, List.filter_cons, ih]

/-- The owners were numbered. -/
theorem Inv.owners_lt (h : Inv e) {n : Nat} (hn : n ∈ e.torrent.selections.filterMap Selection.owner?) :
    n < e.torrent.owners := by
  obtain ⟨k, j, p, hk, hp, rfl⟩ := h.held n hn
  exact (h.jobs k j hk).made p ((h.jobs k j hk).owned.subset hp)

/-- Either the job that was set, or one of the others. -/
theorem getElem?_set_cases {jobs : List Job} {i : Nat} {a : Job} (hi : (jobs.set k j')[i]? = some a) :
    (i = k ∧ a = j') ∨ (i ≠ k ∧ jobs[i]? = some a) := by
  by_cases hik : i = k
  · subst hik
    rw [List.getElem?_set_self'] at hi
    obtain ⟨b, -, rfl⟩ := Option.map_eq_some_iff.mp hi
    exact Or.inl ⟨rfl, rfl⟩
  · rw [List.getElem?_set_ne fun heq => hik heq.symm] at hi
    exact Or.inr ⟨hik, hi⟩

/-- What a job has selected after its step. -/
theorem Moved.selected_cases {t' : Torrent} (h : Moved t j t' j') {p : ℤ × Nat} (hp : p ∈ j'.selected) :
    p ∈ j.selected ∨ (p.2 = t.owners ∧ p.1 ∈ j.indices ∧ t.bitfield p.1 = false) := by
  cases h with
  | keeps hselections howned hselected => exact Or.inl (hselected ▸ hp)
  | drops i n hmem howned hselected hselections => exact Or.inl (hselected ▸ hp)
  | adds i hmem hnew howned hselected howners hselections =>
    rw [hselected] at hp
    rcases List.mem_append.mp hp with hp | hp
    · exact Or.inl hp
    · rw [List.mem_singleton.mp hp]
      exact Or.inr ⟨rfl, hmem, hnew⟩

/-- **A step of one job** among the others. -/
theorem Inv.moves (h : Inv e) (hk : e.jobs[k]? = some j) {t' : Torrent}
    (hs : Stepped e.torrent j t' j') : Inv { torrent := t', jobs := e.jobs.set k j' } := by
  have hjob := h.jobs k j hk
  have hself : (e.jobs.set k j')[k]? = some j' := by
    rw [List.getElem?_set_self']
    rw [hk]
    rfl
  -- A function that is added is new, so no other job has it.
  have hapart : ∀ (i : Nat) (a : Job), i ≠ k → e.jobs[i]? = some a → Apart j' a := by
    intro i a hik ha p hp q hq
    rcases hs.moved.selected_cases hp with hp | ⟨hp, -⟩
    · exact h.apart k i j a hk ha (fun heq => hik heq.symm) p hp q hq
    · rw [hp]
      exact ((h.jobs i a ha).made q hq).ne'
  -- a function that is still in the list is still owned
  have hheld : ∀ n ∈ e.torrent.selections.filterMap Selection.owner?,
      (∀ p ∈ j.owned, p.2 = n → p ∈ j'.owned) → ∃ (i : Nat) (a : Job) (p : ℤ × Nat),
        (e.jobs.set k j')[i]? = some a ∧ p ∈ a.owned ∧ p.2 = n := by
    intro n hn hkeeps
    obtain ⟨i, a, p, hi, hp, hpn⟩ := h.held n hn
    by_cases hik : i = k
    · subst hik
      obtain rfl := Option.some.inj (hk.symm.trans hi)
      exact ⟨i, j', p, hself, hkeeps p hp hpn, hpn⟩
    · exact ⟨i, a, p, by rwa [List.getElem?_set_ne fun heq => hik heq.symm], hp, hpn⟩
  have hlist : (t'.selections.filterMap Selection.owner?).Nodup ∧
      (∀ n ∈ t'.selections.filterMap Selection.owner?, ∃ (i : Nat) (a : Job) (p : ℤ × Nat),
        (e.jobs.set k j')[i]? = some a ∧ p ∈ a.owned ∧ p.2 = n) ∧
      (t'.destroyed = true → t'.selections.filterMap Selection.owner? = []) := by
    rw [hs.same.destroyed]
    cases hs.moved with
    | keeps hselections howned hselected =>
      rw [hselections]
      exact ⟨h.once, fun n hn => hheld n hn fun p hp _ => howned ▸ hp, h.gone⟩
    | drops i n hmem howned hselected hselections =>
      cases hd : e.torrent.destroyed with
      | true =>
        rw [hselections, hd, if_pos rfl, h.gone hd]
        exact ⟨List.nodup_nil, fun m hm => absurd hm List.not_mem_nil, fun _ => rfl⟩
      | false =>
        rw [hselections, hd, if_neg Bool.false_ne_true, filterMap_eraseP]
        refine ⟨h.once.erase n, fun m hm => ?_, fun hno => by cases hno⟩
        obtain ⟨hmn, hm⟩ := h.once.mem_erase_iff.mp hm
        refine hheld m hm fun p hp hpm => ?_
        rw [howned]
        refine List.mem_filter.mpr ⟨hp, decide_eq_true fun hpi => hmn ?_⟩
        -- A job has each of its functions for one piece only.
        have hsame := List.inj_on_of_nodup_map (nodup_keys hjob) (hjob.owned.subset hp)
          (hjob.owned.subset hmem) hpi
        rw [← hpm, hsame]
    | adds i hmem hnew howned hselected howners hselections =>
      have hkeeps : ∀ n ∈ e.torrent.selections.filterMap Selection.owner?,
          ∃ (i : Nat) (a : Job) (p : ℤ × Nat),
            (e.jobs.set k j')[i]? = some a ∧ p ∈ a.owned ∧ p.2 = n := fun n hn =>
        hheld n hn fun p hp _ => by
          rw [howned]
          exact List.mem_append_left _ hp
      rcases hselections with hselections | ⟨halive, hselections⟩
      · rw [hselections]
        exact ⟨h.once, hkeeps, h.gone⟩
      · have happend : t'.selections.filterMap Selection.owner? =
            e.torrent.selections.filterMap Selection.owner? ++ [e.torrent.owners] := by
          rw [hselections, List.filterMap_append]
          rfl
        rw [happend]
        refine ⟨?_, fun n hn => ?_, fun hno => ?_⟩
        · rw [List.nodup_append]
          refine ⟨h.once, List.nodup_singleton _, fun n hn m hm heq => ?_⟩
          rw [List.mem_singleton.mp hm] at heq
          exact (h.owners_lt hn).ne heq
        · rcases List.mem_append.mp hn with hn | hn
          · exact hkeeps n hn
          · rw [List.mem_singleton.mp hn]
            refine ⟨k, j', (i, e.torrent.owners), hself, ?_, rfl⟩
            rw [howned]
            exact List.mem_append_right _ (List.mem_singleton.mpr rfl)
        · cases halive.symm.trans hno
  refine ⟨fun i a hi => ?_, fun i m a b ha hb hne => ?_, hlist.1, hlist.2.1, hlist.2.2⟩
  · rcases getElem?_set_cases hi with ⟨-, rfl⟩ | ⟨-, hi⟩
    · exact hs.ok
    · exact (h.jobs i a hi).grows hs.same.size hs.same.owners
  · rcases getElem?_set_cases ha with ⟨hik, haj⟩ | ⟨hik, ha'⟩
    · rcases getElem?_set_cases hb with ⟨hmk, -⟩ | ⟨hmk, hb'⟩
      · exact absurd (hik.trans hmk.symm) hne
      · rw [haj]
        exact hapart m b hmk hb'
    · rcases getElem?_set_cases hb with ⟨-, hbj⟩ | ⟨-, hb'⟩
      · rw [hbj]
        exact fun p hp q hq heq => hapart i a hik ha' q hq p hp heq.symm
      · exact h.apart i m a b ha' hb' hne

/-- A quiet step leaves the pieces of a job. -/
theorem Quiet.fields (h : Quiet j j') :
    j'.indices = j.indices ∧ j'.owned = j.owned ∧ j'.selected = j.selected := by
  have hcore := h.core
  unfold Job.core at hcore
  simp only [Prod.mk.injEq] at hcore
  exact hcore.2.2

/-- **All jobs hear of something.** -/
theorem Inv.map (h : Inv e) {f : Job → Job} (hf : ∀ j, Quiet j (f j)) :
    Inv { e with jobs := e.jobs.map f } := by
  have hget : ∀ {i : Nat} {a : Job}, (e.jobs.map f)[i]? = some a → ∃ b, e.jobs[i]? = some b ∧ a = f b := by
    intro i a ha
    rw [List.getElem?_map] at ha
    obtain ⟨b, hb, rfl⟩ := Option.map_eq_some_iff.mp ha
    exact ⟨b, hb, rfl⟩
  refine ⟨fun i a ha => ?_, fun i k a b ha hb hne => ?_, h.once, fun n hn => ?_, h.gone⟩
  · obtain ⟨b, hb, rfl⟩ := hget ha
    exact ((h.jobs i b hb).quiet (hf b) e.torrent.cacheChecks).ok
  · obtain ⟨a', ha', rfl⟩ := hget ha
    obtain ⟨b', hb', rfl⟩ := hget hb
    unfold Apart
    rw [(hf a').fields.2.2, (hf b').fields.2.2]
    exact h.apart i k a' b' ha' hb' hne
  · obtain ⟨k, j, p, hk, hp, hpn⟩ := h.held n hn
    refine ⟨k, f j, p, ?_, ?_, hpn⟩
    · rw [List.getElem?_map, hk]
      rfl
    · rw [(hf j).fields.2.1]
      exact hp

/-- **The torrent changes by itself**: it may lose selections, and get others that are no job's. -/
theorem Inv.torrent (h : Inv e) {t' : Torrent} (hsize : t'.size = e.torrent.size)
    (howners : t'.owners = e.torrent.owners)
    (hsub : (t'.selections.filterMap Selection.owner?).Sublist (e.torrent.selections.filterMap Selection.owner?))
    (hgone : t'.destroyed = true → t'.selections.filterMap Selection.owner? = []) :
    Inv { e with torrent := t' } :=
  ⟨fun k j hk => (h.jobs k j hk).grows hsize howners.ge, h.apart, h.once.sublist hsub,
    fun n hn => h.held n (hsub.subset hn), hgone⟩

/-- A verified piece keeps the invariant. -/
theorem Inv.verified (h : Inv e) (index : ℤ) : Inv (e.verified index) := by
  have htorrent : Inv { e with
      torrent := { e.torrent with bitfield := Function.update e.torrent.bitfield index true } } :=
    h.torrent rfl rfl (List.Sublist.refl _) h.gone
  exact htorrent.map (quiet_verified index)

/-- A selection that the job has made. -/
def Job.has (j : Job) (s : Selection) : Bool :=
  match s.notify with
  | .owner n => decide (n ∈ j.selected.map Prod.snd)
  | .other _ => false

/-- What a step does to a job: it selects targets that are not verified, and resolves when all are. -/
structure Follows (t : Torrent) (j j' : Job) : Prop where
  indices : j'.indices = j.indices
  selected : ∀ p ∈ j'.selected, p ∈ j.selected ∨ p.1 ∈ j.indices ∧ t.bitfield p.1 = false
  resolves : Resolves t j j'

/-- A step of a job follows the rules. -/
theorem Stepped.follows {t' : Torrent} (h : Stepped t j t' j') : Follows t j j' :=
  ⟨h.same.indices, fun _ hp => (h.moved.selected_cases hp).imp id fun hnew => hnew.2, h.resolves⟩

/-- So does a quiet one. -/
theorem Quiet.follows (h : Quiet j j') (t : Torrent) : Follows t j j' :=
  ⟨h.fields.1, fun _ hp => Or.inl (h.fields.2.2 ▸ hp), fun v hv => Or.inl (h.outcome v hv)⟩

/-- **A job takes out its own selections only.** -/
theorem Stepped.others {t' : Torrent} (hok : JobOk t j) (h : Stepped t j t' j') :
    (t'.selections.filter fun s => !j'.has s) = t.selections.filter fun s => !j'.has s := by
  cases h.moved with
  | keeps hselections howned hselected => rw [hselections]
  | drops i n hmem howned hselected hselections =>
    rw [hselections]
    split
    · rfl
    · -- whatever is taken out has a function of the job
      have hhas : ∀ s : Selection, s.notify = .owner n → (!j'.has s) = false := by
        intro s hs
        have hin : n ∈ j.selected.map Prod.snd := List.mem_map_of_mem (hok.owned.subset hmem)
        unfold Job.has
        rw [hs, hselected]
        dsimp only
        rw [decide_eq_true hin]
        rfl
      exact filter_eraseP hhas t.selections
  | adds i hmem hnew howned hselected howners hselections =>
    rcases hselections with hselections | ⟨-, hselections⟩
    · rw [hselections]
    · have hhas : j'.has (pieceSelection i t.owners) = true := by
        unfold Job.has pieceSelection
        dsimp only
        rw [hselected]
        exact decide_eq_true (List.mem_map_of_mem (List.mem_append_right _ (List.mem_singleton.mpr rfl)))
      rw [hselections, List.filter_append, List.filter_cons_of_neg, List.filter_nil, List.append_nil]
      rw [hhas]
      exact Bool.false_ne_true

/-- The job that goes on. -/
def Event.job? : Event → Option Nat
  | .worker k _ => some k
  | .checked k => some k
  | .advance k _ => some k
  | .close k => some k
  | .abort k _ => some k
  | _ => none

/-- What a step of the torrent does to its jobs. -/
def JobsFollow (e : Entry) (job : Option Nat) (e' : Entry) : Prop :=
  ∀ (k : Nat) (j : Job), e.jobs[k]? = some j → ∃ j', e'.jobs[k]? = some j' ∧ Follows e.torrent j j' ∧
    (job = some k → (e'.torrent.selections.filter fun s => !j'.has s) =
      e.torrent.selections.filter fun s => !j'.has s)

/-- So does none. -/
theorem follows_refl (t : Torrent) (j : Job) : Follows t j j :=
  ⟨rfl, fun _ hp => Or.inl hp, fun _ hv => Or.inl hv⟩

/-- One job goes on, and the others do not. -/
theorem Inv.one (h : Inv e) (hk : e.jobs[k]? = some j) {t' : Torrent} (hs : Stepped e.torrent j t' j') :
    Inv { torrent := t', jobs := e.jobs.set k j' } ∧
      JobsFollow e (some k) { torrent := t', jobs := e.jobs.set k j' } := by
  refine ⟨h.moves hk hs, fun i a ha => ?_⟩
  by_cases hik : i = k
  · subst hik
    obtain rfl := Option.some.inj (hk.symm.trans ha)
    refine ⟨j', ?_, hs.follows, fun _ => hs.others (h.jobs i j hk)⟩
    rw [List.getElem?_set_self', hk]
    rfl
  · refine ⟨a, ?_, follows_refl _ a, fun heq => absurd (Option.some.inj heq).symm hik⟩
    rw [List.getElem?_set_ne fun heq => hik heq.symm]
    exact ha

/-- Quiet steps of all the jobs follow them. -/
theorem jobsFollow_map {f : Job → Job} (hf : ∀ j, Quiet j (f j)) (t' : Torrent) :
    JobsFollow e none { torrent := t', jobs := e.jobs.map f } := by
  intro k j hk
  refine ⟨f j, ?_, (hf j).follows _, fun heq => by cases heq⟩
  rw [List.getElem?_map, hk]
  rfl

/-- So does a change of the torrent alone. -/
theorem jobsFollow_refl (t' : Torrent) : JobsFollow e none { e with torrent := t' } :=
  fun _ j hk => ⟨j, hk, follows_refl _ j, fun heq => by cases heq⟩

/-- A job begins with nothing selected. -/
theorem jobOk_call {ranges : List (ℚ × ℚ)} {windowPieces : Option ℚ} {aborted : Bool}
    (h : prefetchStartup t ranges windowPieces aborted = some j) : JobOk t j ∧ j.selected = [] := by
  unfold prefetchStartup at h
  split at h
  · cases h
  dsimp only at h
  obtain ⟨window, -, h⟩ := Option.bind_eq_some_iff.mp h
  split at h
  · cases h
  next hwindow =>
    obtain ⟨indices, hindices, h⟩ := Option.bind_eq_some_iff.mp h
    obtain rfl := Option.some.inj h
    have hnew : JobOk t
        { ranges, windowPieces := window, indices, aborted := none, cursor := 0,
          workers := List.replicate (min window.toNat indices.length) .turn, pc := .checking, next := 0,
          again := false, outcome := none, owned := [], lastCompleted := -1, progressed := [], selected := [] } := by
      refine ⟨?_, hindices, List.Sublist.refl _, List.nil_sublist _, fun p hp => ?_, List.nodup_nil, rfl,
        fun v hv => ?_⟩
      · show (0 : ℤ) ≤ window
        omega
      · cases hp
      · cases hv
    exact ⟨(hnew.quiet (quiet_report t _) t.cacheChecks).ok, (quiet_report t _).fields.2.2⟩

/-- **A call** that is accepted. -/
theorem Inv.call (h : Inv e) (hok : JobOk e.torrent j) (hnone : j.selected = []) :
    Inv { e with jobs := e.jobs ++ [j] } ∧ JobsFollow e none { e with jobs := e.jobs ++ [j] } := by
  have hget : ∀ {i : Nat} {a : Job}, (e.jobs ++ [j])[i]? = some a → e.jobs[i]? = some a ∨ a = j := by
    intro i a ha
    rcases Nat.lt_or_ge i e.jobs.length with hlt | hge
    · rw [List.getElem?_append_left hlt] at ha
      exact Or.inl ha
    · rw [List.getElem?_append_right hge] at ha
      exact Or.inr (List.mem_singleton.mp (List.mem_of_getElem? ha))
  have hold : ∀ {i : Nat} {a : Job}, e.jobs[i]? = some a → (e.jobs ++ [j])[i]? = some a := by
    intro i a ha
    obtain ⟨hlt, -⟩ := List.getElem?_eq_some_iff.mp ha
    rw [List.getElem?_append_left hlt]
    exact ha
  refine ⟨⟨fun i a ha => ?_, fun i k a b ha hb hne => ?_, h.once, fun n hn => ?_, h.gone⟩,
    fun i a ha => ⟨a, hold ha, follows_refl _ a, fun heq => by cases heq⟩⟩
  · rcases hget ha with ha | rfl
    · exact h.jobs i a ha
    · exact hok
  · rcases hget ha with ha | rfl
    · rcases hget hb with hb | rfl
      · exact h.apart i k a b ha hb hne
      · intro p _ q hq
        rw [hnone] at hq
        cases hq
    · intro p hp
      rw [hnone] at hp
      cases hp
  · obtain ⟨k, a, p, hk, hp, hpn⟩ := h.held n hn
    exact ⟨k, a, p, hold hk, hp, hpn⟩

/-- **One step.** -/
theorem inv_step (h : Inv e) {event : Event} (hstep : step e event = some e') :
    Inv e' ∧ JobsFollow e event.job? e' := by
  cases event with
  | call ranges windowPieces aborted =>
    unfold step at hstep
    dsimp only at hstep
    split at hstep
    · rw [← Option.some.inj hstep]
      exact ⟨h, jobsFollow_refl e.torrent⟩
    next j hcall =>
      rw [← Option.some.inj hstep]
      obtain ⟨hok, hnone⟩ := jobOk_call hcall
      exact h.call hok hnone
  | worker k w =>
    obtain ⟨j, hk, hstep⟩ := Option.bind_eq_some_iff.mp hstep
    obtain ⟨worker, hw, hstep⟩ := Option.bind_eq_some_iff.mp hstep
    obtain ⟨x, hx, rfl⟩ := Option.map_eq_some_iff.mp hstep
    obtain ⟨hquiet, cacheChecks, htorrent⟩ := quiet_work hx
    -- A turn of a worker is quiet for its job; a piece that it verified is heard by all of them.
    obtain ⟨hinv, hfollow⟩ := h.one hk ((h.jobs k j hk).quiet hquiet cacheChecks)
    rw [← htorrent] at hinv hfollow
    dsimp only
    split
    next index hindex =>
      refine ⟨hinv.verified index, fun i a ha => ?_⟩
      obtain ⟨a', ha', hf, hothers⟩ := hfollow i a ha
      have hheard := quiet_verified index a'
      refine ⟨a'.verified index, ?_, ⟨?_, ?_, ?_⟩, fun hik => ?_⟩
      · show ((e.jobs.set k x.2.1).map (Job.verified index))[i]? = _
        rw [List.getElem?_map, ha']
        rfl
      · rw [hheard.fields.1]
        exact hf.indices
      · rw [hheard.fields.2.2]
        exact hf.selected
      · exact fun v hv => hf.resolves v (hheard.outcome v hv)
      · unfold Job.has
        rw [hheard.fields.2.2]
        exact hothers hik
    · exact ⟨hinv, hfollow⟩
  | checked k =>
    obtain ⟨j, hk, hstep⟩ := Option.bind_eq_some_iff.mp hstep
    obtain ⟨j', hj', rfl⟩ := Option.map_eq_some_iff.mp hstep
    exact h.one hk ((h.jobs k j hk).quiet (quiet_checked hj') e.torrent.cacheChecks)
  | advance k throws =>
    obtain ⟨j, hk, hstep⟩ := Option.bind_eq_some_iff.mp hstep
    obtain ⟨x, hx, rfl⟩ := Option.map_eq_some_iff.mp hstep
    exact h.one hk ((h.jobs k j hk).advances hx)
  | close k =>
    obtain ⟨j, hk, hstep⟩ := Option.bind_eq_some_iff.mp hstep
    split at hstep
    · rw [← Option.some.inj hstep]
      have hquiet : Quiet j { j with pc := .closing (j.owned.map Prod.fst) } :=
        ⟨rfl, rfl, fun _ p hp => List.mem_map_of_mem hp, fun v hv => hv⟩
      exact h.one hk ((h.jobs k j hk).quiet hquiet e.torrent.cacheChecks)
    · cases hstep
  | abort k code =>
    obtain ⟨j, hk, rfl⟩ := Option.map_eq_some_iff.mp hstep
    exact h.one hk ((h.jobs k j hk).quiet (quiet_abort code j) e.torrent.cacheChecks)
  | answer index result =>
    unfold step at hstep
    dsimp only at hstep
    split at hstep
    · rw [← Option.some.inj hstep]
      have hquiet : ∀ j : Job, Quiet j { j with workers := j.workers.map (Worker.answer index result) } :=
        fun j => quiet_workers j _ j.cursor
      -- Every job hears the answer of the cache, and each of its workers that asked takes it.
      have hchecks : Inv { e with torrent := { e.torrent with
          cacheChecks := e.torrent.cacheChecks.erase index } } :=
        h.torrent rfl rfl (List.Sublist.refl _) h.gone
      exact ⟨hchecks.map hquiet, jobsFollow_map hquiet _⟩
    · cases hstep
  | verified index =>
    rw [← Option.some.inj hstep]
    exact ⟨h.verified index, jobsFollow_map (quiet_verified index) _⟩
  | unverified index =>
    rw [← Option.some.inj hstep]
    exact ⟨h.torrent rfl rfl (List.Sublist.refl _) h.gone, jobsFollow_refl _⟩
  | failed code =>
    rw [← Option.some.inj hstep]
    have herror : Inv { e with torrent := { e.torrent with error := true } } :=
      h.torrent rfl rfl (List.Sublist.refl _) h.gone
    exact ⟨herror.map (quiet_abort code), jobsFollow_map (quiet_abort code) _⟩
  | replaced =>
    rw [← Option.some.inj hstep]
    exact ⟨h.torrent rfl rfl (List.Sublist.refl _) h.gone, jobsFollow_refl _⟩
  | destroyed =>
    rw [← Option.some.inj hstep]
    exact ⟨h.torrent rfl rfl (List.nil_sublist _) fun _ => rfl, jobsFollow_refl _⟩
  | selects n first last stream =>
    rw [← Option.some.inj hstep]
    -- A selection of somebody else is owned by no job.
    have hsame : (e.torrent.selections ++ [({ notify := .other n, first, last, stream } : Selection)]).filterMap
        Selection.owner? = e.torrent.selections.filterMap Selection.owner? := by
      rw [List.filterMap_append]
      exact List.append_nil _
    refine ⟨h.torrent rfl rfl ?_ fun hd => ?_, jobsFollow_refl _⟩
    · rw [hsame]
    · exact hsame.trans (h.gone hd)
  | removes i =>
    rw [← Option.some.inj hstep]
    have hsub := (List.eraseIdx_sublist e.torrent.selections i).filterMap Selection.owner?
    refine ⟨h.torrent rfl rfl hsub fun hd => ?_, jobsFollow_refl _⟩
    rw [h.gone hd] at hsub
    exact List.sublist_nil.mp hsub

/-- What a job has in the list, it owns. -/
theorem Inv.owners_sub (h : Inv e) (hk : e.jobs[k]? = some j) :
    (e.torrent.selections.filter j.has).filterMap Selection.owner? ⊆ j.owned.map Prod.snd := by
  intro n hn
  obtain ⟨s, hs, hsn⟩ := List.mem_filterMap.mp hn
  obtain ⟨hmem, hhas⟩ := List.mem_filter.mp hs
  obtain ⟨i, a, p, hi, hp, rfl⟩ := h.held n (List.mem_filterMap.mpr ⟨s, hmem, hsn⟩)
  by_cases hik : i = k
  · subst hik
    obtain rfl := Option.some.inj (hk.symm.trans hi)
    exact List.mem_map_of_mem hp
  · have hnotify : s.notify = .owner p.2 := by
      unfold Selection.owner? at hsn
      split at hsn
      next m hm => rw [hm, Option.some.inj hsn]
      · cases hsn
    unfold Job.has at hhas
    rw [hnotify] at hhas
    obtain ⟨q, hq, hqp⟩ := List.mem_map.mp (of_decide_eq_true hhas)
    exact absurd hqp.symm (h.apart i k a j hi hk hik p ((h.jobs i a hi).owned.subset hp) q hq)

/-- Each selection of a job has one owner. -/
theorem length_owners (j : Job) (l : List Selection) :
    ((l.filter j.has).filterMap Selection.owner?).length = (l.filter j.has).length := by
  rw [List.filterMap_length_eq_length]
  intro s hs
  have hhas := (List.mem_filter.mp hs).2
  unfold Job.has at hhas
  unfold Selection.owner?
  cases hn : s.notify with
  | owner n => rfl
  | other n =>
    rw [hn] at hhas
    cases hhas

/-- **No more selections than pieces that are owned.** -/
theorem Inv.count (h : Inv e) (hk : e.jobs[k]? = some j) :
    (e.torrent.selections.filter j.has).length ≤ j.owned.length := by
  have hnodup : ((e.torrent.selections.filter j.has).filterMap Selection.owner?).Nodup :=
    h.once.sublist (List.filter_sublist.filterMap Selection.owner?)
  have hle := hnodup.length_le_of_subset (h.owners_sub hk)
  rwa [length_owners, List.length_map] at hle

end Entries

/-! ## §5. Runs. -/

/-- **The window**, in every run.  In every state, a job has no more selections than its window, has
    selected targets only and none of them twice, and has none left when it has settled; what it resolves
    with is the total.  And in every step from there, what a job selects is not verified, a job resolves
    only when all its targets are, and the job that goes on leaves everybody else's selections alone. -/
theorem window_owned (size : Nat) (bitfield : ℤ → Bool) (events : List Event) (e : Entry)
    (hrun : run step (Entry.start size bitfield) events = some e) :
    (∀ (k : Nat) (j : Job), e.jobs[k]? = some j →
      ((e.torrent.selections.filter j.has).length : ℤ) ≤ j.windowPieces ∧
      startupTargets j.ranges e.torrent.size = some j.indices ∧
      (j.selected.map Prod.fst).Nodup ∧ (∀ p ∈ j.selected, p.1 ∈ j.indices) ∧
      (∀ v, j.outcome = some (.ok v) →
        v = (targetTotal e.torrent.size j.indices, targetTotal e.torrent.size j.indices)) ∧
      (j.pc = .settled → e.torrent.selections.filter j.has = [])) ∧
    ∀ event e', step e event = some e' → ∀ (k : Nat) (j : Job), e.jobs[k]? = some j →
      ∃ j', e'.jobs[k]? = some j' ∧
        (∀ p ∈ j'.selected, p ∈ j.selected ∨ p.1 ∈ j.indices ∧ e.torrent.bitfield p.1 = false) ∧
        (∀ v, j'.outcome = some (.ok v) → j.outcome = some (.ok v) ∨
          ∀ i ∈ j.indices, e.torrent.bitfield i = true) ∧
        (event.job? = some k → (e'.torrent.selections.filter fun s => !j'.has s) =
          e.torrent.selections.filter fun s => !j'.has s) := by
  have h : Inv e := run_keeps (fun _ _ _ hinv hstep => (inv_step hinv hstep).1) events _ _
    (inv_start size bitfield) hrun
  refine ⟨fun k j hk => ?_, fun event e' hstep k j hk => ?_⟩
  · have hok := h.jobs k j hk
    have hcount := h.count hk
    refine ⟨(Int.ofNat_le.mpr hcount).trans hok.window, hok.targets, nodup_keys hok, fun p hp => ?_, hok.result,
      fun hsettled => ?_⟩
    · exact List.mem_of_mem_take (hok.taken.subset (List.mem_map_of_mem hp))
    · have hpc := hok.pc
      rw [hsettled] at hpc
      rw [show j.owned = [] from hpc] at hcount
      exact List.length_eq_zero_iff.mp (Nat.le_zero.mp hcount)
  · obtain ⟨j', hj', hfollows, hothers⟩ := (inv_step h hstep).2 k j hk
    exact ⟨j', hj', hfollows.selected, hfollows.resolves, hothers⟩

/-- Two jobs with the pieces 0 and 1, and 1 and 2, one selection at a time.  Piece 2 is in the cache; both
jobs select piece 1. -/
def demoEvents : List Event :=
  List.flatten
    [[.call [(0, 300000)] (some 1) false, .call [(300000, 300000)] (some 1) false],
      [.worker 0 0, .answer 0 (.ok false), .worker 0 0, .worker 0 0, .worker 1 0, .answer 1 (.ok false)],
      [.worker 0 0, .worker 0 0, .worker 1 0, .worker 1 0, .answer 2 (.ok true), .worker 1 0, .worker 1 0],
      [.checked 0, .checked 1], List.replicate 4 (.advance 0 none), List.replicate 4 (.advance 1 none),
      [.verified 0], List.replicate 5 (.advance 0 none),
      [.verified 1], List.replicate 4 (.advance 0 none), List.replicate 5 (.advance 1 none),
      [.close 0, .advance 0 none, .close 1, .advance 1 none]]

def demoEntry : Entry :=
  (run step (Entry.start 600000 fun _ => false) demoEvents).getD (Entry.start 600000 fun _ => false)

/-- Two jobs with a piece in common: both settle, and only one of them selected it. -/
theorem demo_window_owned :
    run step (Entry.start 600000 fun _ => false) demoEvents = some demoEntry ∧
      demoEntry.jobs.map (fun j => (j.pc, j.selected)) =
        [(.settled, [(0, 0), (1, 2)]), (.settled, [(1, 1)])] ∧
      ∀ (k : Nat) (j : Job), demoEntry.jobs[k]? = some j →
        j.pc = .settled → demoEntry.torrent.selections.filter j.has = [] := by
  have hrun : run step (Entry.start 600000 fun _ => false) demoEvents = some demoEntry :=
    run_getD (by decide +kernel)
  refine ⟨hrun, by decide +kernel, fun k j hk => ?_⟩
  obtain ⟨-, -, -, -, -, hsettled⟩ :=
    (window_owned 600000 (fun _ => false) demoEvents demoEntry hrun).1 k j hk
  exact hsettled

end My98.Web.StartupWindow
