/-
  My98.Disk.Unchanged — when a save has nothing to write.

  `begin_save` compares the dirty sectors with the base and, when none differs, leaves a VERDICT:
  the revision it looked at.  `accept_unchanged` drops the overlay on the strength of that
  verdict alone, so that a stale one would throw written data away.

    • `Verdict`    — one `begin_save`: its answer is exact, and a failure changes nothing;
    • `standing`   — whether the last verdict of a run still stands;
    • `Accepted`   — one `accept_unchanged` after a run: it returns only on a verdict that stands,
      and then it changes no byte;
    • `change_detection` — both, for every reachable engine.
-/
import Mathlib.Algebra.Order.Ring.Nat
import Mathlib.Tactic.Common
import My98.Disk.Save

namespace My98.Disk

open My98.Lib My98.Crypto

variable {P : Primitives}

/-! ## §1. What the comparison says of the content. -/

section Content

variable {host : Host} {img : Image} {base : Bytes}

/-- A sector that differs, differs in the content. -/
theorem Image.Differs.content_ne (ho : img.Over P host base) (hwf : img.WF P host)
    (h : img.Differs P host) : img.content base ≠ base := by
  intro hsame
  obtain ⟨s, b, chunk, hb, hchunk, hne⟩ := h
  obtain ⟨hstart, hblen⟩ := hwf.dirty s b hb
  have hclen := hchunk.2.1
  have hauth := ho.authentic _ _ hchunk
  simp only [chunkLen, CHUNK] at hclen hauth
  refine hne (List.ext_getElem? fun q => ?_)
  rw [getElem?_slice]
  by_cases hq : q < b.length
  · rw [if_pos hq]
    have hp : 512 * s + q < img.size := by omega
    have hdiv : (512 * s + q) / 512 = s := by omega
    have hmod : (512 * s + q) % 512 = q := by omega
    have hshown : (img.content base)[512 * s + q]? = b[q]? := by
      rw [Image.getElem?_content, if_pos hp]
      have hdirty : (512 * s + q) % 512 < b.length := by
        rw [hmod]
        exact hq
      rw [← hdiv] at hb
      rw [← Image.overlay_of_dirty hb hdirty, hmod]
    rw [hsame] at hshown
    rw [← hshown, hauth, getElem?_slice, if_pos (by omega)]
    congr 1
    omega
  · rw [if_neg hq, List.getElem?_eq_none (by omega)]

end Content

/-! ## §2. `begin_save`. -/

/-- What one `begin_save` has answered. -/
structure Engine.Verdict (e : Engine P) (img : Image) (base : Bytes) (r : Except Stop Value)
    (e' : Engine P) : Prop where
  /-- The image is what it was, up to its cache. -/
  image : ∃ img', e'.image = some img' ∧ img.Like img'
  returns : ∀ v, r = .ok v → ∃ changed, v = .bool changed ∧
    (changed = false ↔ img.content base = base)
  /-- A build for the current content. -/
  changed : r = .ok (.bool true) → ∃ b, e'.build = some b ∧ b.raw = none ∧ b.size = img.size ∧
    b.index = 0 ∧ b.revision = e'.revision
  unchanged : r = .ok (.bool false) → e'.build = none ∧ e'.unchanged = some e'.revision
  stopped : ∀ st, r = .error st → e' = { e with image := e'.image }

section BeginSave

variable {host : Host} {e e' : Engine P} {img : Image} {base : Bytes}

theorem Engine.Kept.like (hk : e.Kept host e') (hi : e.image = some img) :
    ∃ img', e'.image = some img' ∧ img.Like img' := by
  obtain ⟨img', hi', hlike, -⟩ := hk.image img hi
  exact ⟨img', hi', hlike⟩

theorem Engine.beginSave_verdict (hwf : e.WF host) (hi : e.image = some img)
    (ho : img.Over P host base) {io : Io} (hio : io.Within host) {r : Except Stop Value}
    (h : e.step io .beginSave = (r, e')) : e.Verdict img base r e' := by
  have hout := Engine.step_spec hwf hio h
  cases r with
  | error st =>
    obtain ⟨-, hstopped⟩ := hout
    cases hstopped with
    | kept hk =>
      refine ⟨hk.like hi, ?_, ?_, ?_, fun _ _ => hk.same⟩
      · intro v hv
        cases hv
      · intro hr
        cases hr
      · intro hr
        cases hr
  | ok v =>
    have hdone : Engine.Done host e .beginSave v e' := hout
    cases hdone with
    | @saveChanged e₁ _ img₁ hk hi₁ hd hb =>
      obtain ⟨img₂, hi₂, hlike, hwf₂⟩ := hk.image img hi
      rw [hi₁] at hi₂
      obtain rfl := Option.some.inj hi₂
      -- A sector that differs from the file makes the contents differ.
      have hne := hd.content_ne (hlike.over P ho) hwf₂
      rw [hlike.content] at hne
      obtain ⟨id, disk, salt, header, -, -, -, -, -, rfl⟩ := hb
      refine ⟨⟨img₁, hi₁, hlike⟩, ?_, ?_, ?_, ?_⟩
      · intro v hv
        obtain rfl := Except.ok.inj hv
        exact ⟨true, rfl, iff_of_false Bool.noConfusion hne⟩
      · intro _
        refine ⟨_, rfl, rfl, ?_, rfl, rfl⟩
        show img₁.size = img.size
        rw [hlike]
      · intro hr
        cases hr
      · intro st hr
        cases hr
    | @saveUnchanged e₁ img₁ hid hb hk hi₁ hp =>
      obtain ⟨img₂, hi₂, hlike, hwf₂⟩ := hk.image img hi
      rw [hi₁] at hi₂
      obtain rfl := Option.some.inj hi₂
      -- Every sector was compared, so the contents are the same.
      have hsame := hp.content (hlike.over P ho) hwf₂
      rw [hlike.content] at hsame
      refine ⟨⟨img₁, hi₁, hlike⟩, ?_, ?_, ?_, ?_⟩
      · intro v hv
        obtain rfl := Except.ok.inj hv
        exact ⟨false, rfl, iff_of_true rfl hsame⟩
      · intro hr
        cases hr
      · intro _
        refine ⟨?_, rfl⟩
        show e₁.build = none
        rw [hk.same]
        exact hb
      · intro st hr
        cases hr

end BeginSave

/-! ## §3. Verdicts in a run. -/

/-- A call that returned and ended what the last verdict says. -/
def spoils : Call × Except Stop Value → Bool
  | (.write _ bytes, .ok _) => !bytes.isEmpty
  | (.discard, .ok _) => true
  | (.accept _ _, .ok _) => true
  | (.cancel, .ok _) => true
  | (.acceptUnchanged, .ok _) => true
  | _ => false

/-- `begin_save` returned `false`. -/
def verdict : Call × Except Stop Value := (.beginSave, .ok (.bool false))

/-- The last verdict in a list of calls still stands at its end. -/
def Standing (results : List (Call × Except Stop Value)) : Prop :=
  ∃ before after, results = before ++ verdict :: after ∧ ∀ x ∈ after, spoils x = false

section Standing

variable {host : Host} {e e' : Engine P} {c : Call} {v : Value}

theorem Engine.Kept.stamp (hk : e.Kept host e') :
    e'.unchanged = e.unchanged ∧ e'.revision = e.revision := by
  rw [hk.same]
  exact ⟨rfl, rfl⟩

theorem Engine.Fed.stamp {img : Image} {fed fed' : Bytes} {index index' : Nat}
    (hf : e.Fed host img fed index e' fed' index') :
    e'.unchanged = e.unchanged ∧ e'.revision = e.revision := by
  rcases hf with ⟨-, rfl, -⟩ | ⟨-, e₁, bytes, hk, -, -, rfl, -, -⟩
  · exact ⟨rfl, rfl⟩
  · exact hk.stamp

/-- A revision that has moved on is not the stamp. -/
theorem Engine.WF.stamp_ne (hwf : e.WF host) : e.unchanged ≠ some (e.revision + 1) := by
  intro h
  have hle := (hwf.unchanged _ h).1
  omega

/-- **Where a stamp comes from**: the call has just set it, or it was there and the call does
    not end it. -/
theorem Engine.Done.stamped (hwf : e.WF host) (h : Done host e c v e')
    (hu : e'.unchanged = some e'.revision) :
    (c, Except.ok v) = verdict ∨ spoils (c, .ok v) = false ∧ e.unchanged = some e.revision := by
  cases h with
  | openDisk => exact absurd hu hwf.stamp_ne
  | beginCreate hi hb =>
    obtain ⟨id, disk, salt, header, -, -, -, -, -, rfl⟩ := hb
    exact .inr ⟨rfl, hu⟩
  | saveChanged hk hi hd hb =>
    obtain ⟨id, disk, salt, header, -, -, -, -, -, rfl⟩ := hb
    obtain ⟨hsame, hrevision⟩ := hk.stamp
    refine .inr ⟨rfl, ?_⟩
    rw [← hsame, ← hrevision]
    exact hu
  | saveUnchanged => exact .inl rfl
  | acceptUnchanged => cases hu
  | nextEnd => exact .inr ⟨rfl, hu⟩
  | nextChunk hb hr hlt hk =>
    obtain ⟨hsame, hrevision⟩ := hk.stamp
    refine .inr ⟨rfl, ?_⟩
    rw [← hsame, ← hrevision]
    exact hu
  | accept => exact absurd hu hwf.stamp_ne
  | cancel => cases hu
  | read hk =>
    obtain ⟨hsame, hrevision⟩ := hk.stamp
    refine .inr ⟨rfl, ?_⟩
    rw [← hsame, ← hrevision]
    exact hu
  | writeEmpty => exact .inr ⟨rfl, hu⟩
  | write => exact absurd hu hwf.stamp_ne
  | discard => cases hu
  | clearCache => exact .inr ⟨rfl, hu⟩
  | verifyStart => exact .inr ⟨rfl, hu⟩
  | verifyMore hi hh hf =>
    obtain ⟨hsame, hrevision⟩ := hf.stamp
    refine .inr ⟨rfl, ?_⟩
    rw [← hsame, ← hrevision]
    exact hu
  | verifyEnd hi hh hf =>
    obtain ⟨hsame, hrevision⟩ := hf.stamp
    refine .inr ⟨rfl, ?_⟩
    rw [← hsame, ← hrevision]
    exact hu

theorem Engine.Stopped.stamp (h : Stopped host e c e') :
    e'.unchanged = e.unchanged ∧ e'.revision = e.revision := by
  cases h with
  | kept hk => exact hk.stamp
  | fed hi hh hf => exact hf.stamp

theorem spoils_error {c : Call} {st : Stop} : spoils (c, .error st) = false := by
  cases c <;> rfl

theorem Engine.step_stamped {io : Io} (hwf : e.WF host) (hio : io.Within host)
    {r : Except Stop Value} (h : e.step io c = (r, e')) (hu : e'.unchanged = some e'.revision) :
    (c, r) = verdict ∨ spoils (c, r) = false ∧ e.unchanged = some e.revision := by
  have hout := Engine.step_spec hwf hio h
  cases r with
  | ok v => exact Engine.Done.stamped hwf hout hu
  | error st =>
    obtain ⟨hsame, hrevision⟩ := hout.2.stamp
    refine .inr ⟨spoils_error, ?_⟩
    rw [← hsame, ← hrevision]
    exact hu

/-- A stamp at the end of a run was set in it, or was there before; nothing ended it since. -/
theorem Engine.run_stamped (calls : List (Io × Call)) (hio : ∀ x ∈ calls, x.1.Within host) :
    ∀ e : Engine P, e.WF host → (e.run calls).2.unchanged = some (e.run calls).2.revision →
      Standing (e.run calls).1 ∨
        e.unchanged = some e.revision ∧ ∀ x ∈ (e.run calls).1, spoils x = false := by
  induction calls with
  | nil =>
    intro e _ hu
    refine .inr ⟨hu, ?_⟩
    intro x hx
    cases hx
  | cons x rest ih =>
    intro e hwf hu
    obtain ⟨io, c⟩ := x
    cases hstep : e.step io c with
    | mk r e' =>
      have hio₀ : io.Within host := hio (io, c) List.mem_cons_self
      rw [Engine.run_cons hstep] at hu ⊢
      have hrest := ih (fun y hy => hio y (List.mem_cons_of_mem _ hy)) e'
        (Engine.wf_step hwf hio₀ hstep) hu
      rcases hrest with ⟨before, after, hsplit, hafter⟩ | ⟨hu', hafter⟩
      · refine .inl ⟨(c, r) :: before, after, ?_, hafter⟩
        show (c, r) :: (e'.run rest).1 = _
        rw [hsplit]
        rfl
      · rcases Engine.step_stamped hwf hio₀ hstep hu' with hverdict | ⟨hspoils, hu''⟩
        · exact .inl ⟨[], (e'.run rest).1, by rw [hverdict]; rfl, hafter⟩
        · refine .inr ⟨hu'', ?_⟩
          intro y hy
          rcases List.mem_cons.mp hy with rfl | hy
          · exact hspoils
          · exact hafter y hy

end Standing

/-! ## §4. `accept_unchanged`. -/

/-- A call of `accept_unchanged` that stops leaves everything. -/
theorem Engine.acceptUnchanged_keeps {io : Io} {s : Engine P × Nat} :
    wp (Engine.acceptUnchanged io) (fun _ _ => True) (fun _ s' => s'.1 = s.1) s := by
  unfold Engine.acceptUnchanged
  rw [wp_bind]
  refine wp_owner (fun _ _ => ?_) (fun _ => rfl)
  rw [wp_bind]
  refine wp_check io ?_ (fun _ => rfl)
  rw [wp_bind, wp_self, wp_bind]
  refine wp_require (fun _ => ?_) (fun _ => rfl)
  rw [wp_bind]
  refine wp_onImage (fun _ => rfl) (fun _ _ => ?_)
  rw [wp_modify, wp_update]
  exact trivial

/-- What one `accept_unchanged` has done, after the calls with the given results. -/
structure Engine.Accepted (e : Engine P) (host : Host) (results : List (Call × Except Stop Value))
    (r : Except Stop Value) (e' : Engine P) : Prop where
  standing : ∀ v, r = .ok v → Standing results
  /-- The overlay is empty, and no byte of the content has changed. -/
  emptied : ∀ v, r = .ok v → ∃ img, e.image = some img ∧
    e' = { e with image := some { img with dirty := ∅ }, unchanged := none } ∧
    ∀ base, img.Over P host base → ({ img with dirty := ∅ } : Image).content base = img.content base
  stopped : ∀ st, r = .error st → e' = e

theorem Engine.acceptUnchanged_accepted {host : Host} {e₀ e' : Engine P} (hwf₀ : e₀.WF host)
    (hnone : e₀.unchanged = none) (calls : List (Io × Call)) (hcalls : ∀ x ∈ calls, x.1.Within host)
    (hwf : (e₀.run calls).2.WF host) {io : Io} (hio : io.Within host) {r : Except Stop Value}
    (h : (e₀.run calls).2.step io .acceptUnchanged = (r, e')) :
    (e₀.run calls).2.Accepted host (e₀.run calls).1 r e' := by
  have hout := Engine.step_spec hwf hio h
  cases r with
  | error st =>
    refine ⟨?_, ?_, ?_⟩
    · intro v hv
      cases hv
    · intro v hv
      cases hv
    · intro _ _
      unfold Engine.step at h
      cases hrun : Call.acceptUnchanged.run io ((e₀.run calls).2, 0) with
      | ok v s =>
        rw [hrun] at h
        cases (Prod.mk.inj h).1
      | error st' s =>
        rw [hrun] at h
        obtain ⟨-, rfl⟩ := Prod.mk.inj h
        have hkeeps : wp (Call.acceptUnchanged.run io) (fun _ _ => True)
            (fun _ s' => s'.1 = (e₀.run calls).2) ((e₀.run calls).2, 0) := by
          show wp ((fun _ => Value.unit) <$> Engine.acceptUnchanged io) _ _ _
          rw [wp_map]
          exact Engine.acceptUnchanged_keeps
        have hsame := wp_of_error hkeeps hrun
        exact hsame
  | ok v =>
    have hdone : Engine.Done host (e₀.run calls).2 .acceptUnchanged v e' := hout
    cases hdone with
    | @acceptUnchanged img hid hu hi =>
      refine ⟨?_, ?_, ?_⟩
      · intro _ _
        rcases Engine.run_stamped calls hcalls e₀ hwf₀ hu with hstanding | ⟨hu₀, -⟩
        · exact hstanding
        · rw [hnone] at hu₀
          cases hu₀
      · intro _ _
        refine ⟨img, hi, rfl, ?_⟩
        intro base ho
        obtain ⟨-, img', hi', hp⟩ := hwf.unchanged _ hu
        obtain rfl := Option.some.inj (hi.symm.trans hi')
        rw [Image.content_empty ho]
        exact ((hp rfl).content ho (hwf.image _ hi)).symm
      · intro st hst
        cases hst

variable (P) in
/-- `begin_save` of a reachable engine, whatever calls came before. -/
def BeginSaveExact : Prop :=
  ∀ (host : Host) (e e' : Engine P) (img : Image) (base : Bytes) (io : Io) (r : Except Stop Value),
    Reachable host e → e.image = some img → img.Over P host base → io.Within host →
    e.step io .beginSave = (r, e') → e.Verdict img base r e'

variable (P) in
/-- `accept_unchanged` after any calls of an engine without a verdict. -/
def AcceptUnchangedExact : Prop :=
  ∀ (host : Host) (e e' : Engine P) (calls : List (Io × Call)) (io : Io) (r : Except Stop Value),
    Reachable host e → e.unchanged = none → (∀ x ∈ calls, x.1.Within host) → io.Within host →
    (e.run calls).2.step io .acceptUnchanged = (r, e') →
    (e.run calls).2.Accepted host (e.run calls).1 r e'

/-- **Change detection is exact, and only a verdict that stands is acted on.** -/
theorem change_detection (P : Primitives) : BeginSaveExact P ∧ AcceptUnchangedExact P := by
  constructor
  · intro host e e' img base io r hr hi ho hio h
    exact Engine.beginSave_verdict hr.wf hi ho hio h
  · intro host e e' calls io r hr hnone hcalls hio h
    exact Engine.acceptUnchanged_accepted hr.wf hnone calls hcalls (hr.run calls hcalls).wf hio h

/-! The owner of the five bytes writes the first of them again. -/

def demoSame : List (Io × Call) :=
  [(demoHost, .beginCreate "raw" 5), (demoHost, .next), (demoHost, .accept "disk" 265),
   (demoHost, .write 0 [10]), (demoHost, .beginSave), (demoHost, .read 0 5)]

/-- The verdict is accepted, because it stands. -/
theorem demoSame_accepted :
    ((demoOwner.run demoSame).2.step demoHost .acceptUnchanged).1 = .ok .unit ∧
      Standing (demoOwner.run demoSame).1 := by
  have hok : ((demoOwner.run demoSame).2.step demoHost .acceptUnchanged).1 = .ok .unit := by
    decide +kernel
  refine ⟨hok, ?_⟩
  have hcalls : ∀ x ∈ demoSame, x.1.Within (stored demoFiles) := by
    intro x hx
    simp only [demoSame, List.mem_cons, List.not_mem_nil, or_false] at hx
    rcases hx with rfl | rfl | rfl | rfl | rfl | rfl <;> exact demoHost_within
  exact ((change_detection plain).2 _ _ _ demoSame demoHost _ (.new demoOwner_new) rfl hcalls
    demoHost_within (Engine.step_eq hok)).standing _ rfl

end My98.Disk
