/-
  My98.Web.WorkerDisk — the requests on an open disk of the Worker.

  Reading, writing, downloading, verifying, discarding, and the states: `prepareState` makes a
  candidate beside the vault, `commitState` puts it in the vault's place.  Each of them ends with
  the invariant of `WorkerState`, or it leaves the disk as it was.

  `discard` and `commitState` change the disk and THEN ask a publication to prefetch; when that
  call fails the request fails with the disk changed, and `Env.Calm` says that it does not.
-/
import Mathlib.Algebra.Order.Ring.Nat
import Mathlib.Tactic.Common
import My98.Web.WorkerState

namespace My98.Web.Worker

open My98.Lib My98.Disk My98.Crypto

variable {P : Primitives} {α : Type}

/-! ## §1. The open disk. -/

section Disk

variable {Q : α → State P × Nat → Prop} {R : State P → Prop} {s : State P × Nat} {env : Env}
  {e : Engine P}

/-- `read` leaves disk and image as they are. -/
theorem wp_read (hw : Inv s.1) (hv : s.1.vault = some e) (offset length : Nat) :
    wp (read env offset length) (fun _ s' => Stays s.1 s'.1) (Ends (Stays s.1)) s := by
  have hs := hw.sound e hv
  have hstays : Stays s.1 { s.1 with freshRestore := false } :=
    ⟨{ Near.refl s.1 with }, hw.idle⟩
  unfold read
  rw [wp_bind, wp_update, wp_bind]
  refine wp_require (fun _ => ?_) (fun _ _ => hstays)
  rw [wp_bind]
  refine wp_call (e := e) (fun io hio => Engine.meets_read hs.wf hio _ _) hv ?_ ?_
  · intro b e' t hd
    cases hd with
    | read hk hi hbound hlen hout =>
      refine hstays.put hv (Alike.of_kept hk) ?_
      rw [hk.same]
      exact hw.idle e hv
  · intro st e' t hstop _
    exact hstays.stopped hv hstop

/-- `write` keeps the invariant, and an error leaves disk and image as they are. -/
theorem wp_write (hw : Inv s.1) (hv : s.1.vault = some e) (offset : Nat) (bytes : Bytes) :
    wp (write env offset bytes) (fun _ s' => Inv s'.1) (Ends (Stays s.1)) s := by
  have hs := hw.sound e hv
  have hstays : Stays s.1 { s.1 with freshRestore := false } :=
    ⟨{ Near.refl s.1 with }, hw.idle⟩
  unfold write
  rw [wp_bind, wp_update, wp_bind]
  refine wp_call (e := e) (fun io hio => Engine.meets_write hs.wf hio _ _) hv ?_ ?_
  · intro _ e' t hd
    have hs' : Sound e' := ⟨hd.wf hs.wf, hd.live hs.live⟩
    obtain ⟨img, img', hi, hi', hsrc, hb'⟩ : ∃ img img', e.image = some img ∧
        e'.image = some img' ∧ img'.source = img.source ∧ e'.build = e.build := by
      cases hd with
      | writeEmpty hi hbound => exact ⟨_, _, hi, hi, rfl, rfl⟩
      | write hne hi hbound hk hd =>
        refine ⟨_, _, hi, rfl, ?_, rfl⟩
        dsimp only
        rw [hk.1]
    have hinv : Inv (State.put { s.1 with freshRestore := false } e') := by
      refine (hstays.inv hw).put hv hs' (hb'.trans (hw.idle e hv)) ⟨?_, ?_⟩
      · intro img₁ h₁
        rw [hi'] at h₁
        obtain rfl := Option.some.inj h₁
        exact ⟨img, hi, hsrc⟩
      · intro hnone
        rw [hi'] at hnone
        cases hnone
    refine wp_described (e := e') rfl hs' (fun _ => hinv) ?_
    intro hnone
    rw [hi'] at hnone
    cases hnone
  · intro st e' t hstop _
    exact hstays.stopped hv hstop

/-- `cancel` leaves disk and image as they are. -/
theorem wp_cancel {w : State P} (h : Stays w s.1) (hv : s.1.vault = some e) :
    wp (onVault env fun _ => Engine.cancel) (fun _ s' => Stays w s'.1) (Ends (Stays w)) s :=
  wp_onVault hv (h.put hv (Alike.cancelled e) rfl)

/-- The vault of a state that stayed. -/
theorem Stays.vault {w w' : State P} (h : Stays w w') (hw : Inv w) (hv : w.vault = some e) :
    ∃ e', w'.vault = some e' ∧ Sound e' ∧ Alike e e' := by
  have hrel := h.near.vault
  rw [hv] at hrel
  cases hv' : w'.vault with
  | none =>
    rw [hv'] at hrel
    cases hrel
  | some e' =>
    rw [hv'] at hrel
    cases hrel with
    | some ha => exact ⟨e', rfl, ha.sound (hw.sound e hv), ha⟩

/-- Each turn of the verification leaves disk and image as they are. -/
theorem wp_verifyLoop {w : State P} (hw : Inv w) (hv : w.vault = some e) (n : Nat) :
    ∀ s : State P × Nat, Stays w s.1 →
      wp (verifyLoop env n) (fun _ s' => Stays w s'.1) (Ends (Stays w)) s := by
  induction n with
  | zero =>
    intro s _ hne
    exact absurd rfl hne
  | succ n ih =>
    intro s hstays
    obtain ⟨e₁, hv₁, hs₁, -⟩ := hstays.vault hw hv
    have hb₁ := hstays.idle e₁ hv₁
    unfold verifyLoop
    rw [wp_bind]
    refine wp_poll ?_ hstays
    rw [wp_bind]
    refine wp_call (e := e₁) (fun io hio => Engine.meets_verifyStep hs₁.wf hio) hv₁ ?_ ?_
    · intro r e' t hd
      have hsound : Sound e₁ → Sound e' := fun hs => ⟨hd.wf hs.wf, hd.live hs.live⟩
      have halike : Alike e₁ e' ∧ e'.build = none := by
        cases hd with
        | verifyMore hi hh hf _ =>
          obtain ⟨ha, hb⟩ := Alike.of_stopped (.fed hi hh hf)
          exact ⟨ha, hb.trans hb₁⟩
        | verifyEnd hi hh hf _ =>
          obtain ⟨ha, hb⟩ := Alike.of_stopped (.fed hi hh hf)
          exact ⟨⟨ha.identity, ha.revision, ha.image, ha.absent, hsound⟩, hb.trans hb₁⟩
      have hstays' := hstays.put hv₁ halike.1 halike.2
      cases r with
      | none => exact ih _ hstays'
      | some hash =>
        dsimp only
        rw [wp_bind]
        refine wp_poll ?_ hstays'
        rw [wp_bind]
        exact wp_description (e := e') rfl (hsound hs₁) (fun _ _ _ _ _ => hstays') (fun _ => hstays')
    · intro st e' t hstop _
      exact hstays.stopped hv₁ hstop

/-- `verify` leaves disk and image as they are. -/
theorem wp_verify (hw : Inv s.1) (hv : s.1.vault = some e) :
    wp (verify env) (fun _ s' => Stays s.1 s'.1) (Ends (Stays s.1)) s := by
  have hs := hw.sound e hv
  have hstays := Stays.refl hw
  unfold verify
  rw [wp_bind]
  refine wp_call (fun io _ => Engine.meets_verifyStart hs.wf) hv ?_ ?_
  · intro _ e' t hd
    have hsound : Sound e → Sound e' := fun hs => ⟨hd.wf hs.wf, hd.live hs.live⟩
    have halike : Alike e e' ∧ e'.build = none := by
      cases hd with
      | verifyStart hi =>
        exact ⟨⟨rfl, rfl, fun img hi => ⟨img, hi, Image.Like.refl img⟩, fun h => h, hsound⟩,
          hw.idle e hv⟩
    have hstays' := hstays.put hv halike.1 halike.2
    rw [wp_bind]
    refine wp_catching_throw (wp_mono (wp_verifyLoop hw hv env.rounds _ hstays') (fun _ _ h => h) ?_)
    intro st s' h hne t'
    obtain ⟨e₂, hv₂, -⟩ := (h hne).vault hw hv
    exact wp_cancel (s := (s'.1, t')) (h hne) hv₂
  · intro st e' t hstop _
    exact hstays.stopped hv hstop

/-- A block of the download is added to what was downloaded. -/
theorem wp_downloadBlock {Q : Bytes → State P × Nat → Prop} {input parts : Bytes} {block : Nat}
    (hok : ∀ t, Q (parts ++ slice input (block * 1048576)
      (min 1048576 (input.length - block * 1048576))) (s.1, t))
    (hstop : R s.1) : wp (downloadBlock env input parts block) Q (Ends R) s := by
  unfold downloadBlock
  rw [wp_bind]
  refine wp_poll ?_ hstop
  rw [wp_bind, wp_tick]
  cases env.readFails (s.2 + 1) with
  | some e => exact fun _ => hstop
  | none =>
    dsimp only
    rw [wp_bind]
    exact wp_poll (hok _) hstop

/-- The blocks of a download are the file, in order. -/
theorem wp_downloadBlob {Q : Bytes → State P × Nat → Prop} (input : Source)
    (hok : ∀ t, Q input.bytes (s.1, t)) (hstop : R s.1) :
    wp (downloadBlob env input) Q (Ends R) s := by
  have hloop : wp (do
      let blob ← (List.range (divCeil input.bytes.length 1048576)).foldlM
        (downloadBlock env input.bytes) []
      check env
      pure blob) Q (Ends R) s := by
    rw [wp_bind]
    -- after `n` blocks the first `n` MiB are there
    have hfold := wp_foldlM (E := Ends R) (downloadBlock env input.bytes)
      (fun done acc s' => s'.1 = s.1 ∧ acc = input.bytes.take (done.length * 1048576))
      (List.range (divCeil input.bytes.length 1048576)) ?_ [] s ⟨rfl, by simp⟩
    · refine wp_mono hfold ?_ (fun _ _ h => h)
      rintro blob ⟨w, t⟩ ⟨rfl, hblob⟩
      have hall : blob = input.bytes := by
        rw [hblob, List.length_range]
        refine List.take_of_length_le ?_
        unfold divCeil
        omega
      rw [wp_bind]
      refine wp_poll ?_ hstop
      rw [hall]
      exact hok _
    · rintro done x rest acc ⟨w, t⟩ hrange ⟨rfl, hacc⟩
      have hx : x = done.length := by
        have hget := congrArg (·[done.length]?) hrange
        simp only [List.getElem?_append_right (Nat.le_refl _), Nat.sub_self,
          List.getElem?_cons_zero] at hget
        obtain ⟨hlt, hval⟩ := List.getElem?_eq_some_iff.mp hget
        rw [List.getElem_range] at hval
        exact hval.symm
      refine wp_downloadBlock ?_ hstop
      intro t'
      refine ⟨rfl, ?_⟩
      have hblock : slice input.bytes (done.length * 1048576)
          (min 1048576 (input.bytes.length - done.length * 1048576)) =
          (input.bytes.drop (done.length * 1048576)).take 1048576 := by
        unfold slice
        rw [← List.length_drop, ← List.take_eq_take_min]
      rw [hacc, hx, hblock, List.length_append, List.length_singleton, Nat.add_mul, Nat.one_mul,
        List.take_add]
  unfold downloadBlob
  cases input.kind with
  | blob => exact hok s.2
  | zeros => exact hloop
  | remote r => exact hloop

/-- The image of the Worker is that of its vault. -/
theorem State.image_of_vault {w : State P} (hv : w.vault = some e) : w.image = e.image := by
  unfold State.image
  rw [hv]
  rfl

/-- `download` keeps the invariant. -/
theorem wp_download (hw : Inv s.1) (hv : s.1.vault = some e) :
    wp (download env) (fun _ s' => Inv s'.1) (Ends (Stays s.1)) s := by
  have hs := hw.sound e hv
  have hstays := Stays.refl hw
  unfold download
  rw [wp_bind]
  refine wp_description hv hs (fun d img hi _ _ => ?_) (fun _ => hstays)
  dsimp only
  rw [wp_bind]
  refine wp_require (fun _ => ?_) (fun _ _ => hstays)
  rw [wp_bind, wp_self]
  cases hp : s.1.prepared with
  | some p => exact hw
  | none =>
    have himage : s.1.image = some img := (State.image_of_vault hv).trans hi
    obtain ⟨hcur, src, hget, -⟩ := hw.image img himage
    have hinput : s.1.input = some src := by
      unfold State.input
      rw [hcur]
      exact hget
    dsimp only
    rw [hinput]
    dsimp only
    rw [wp_bind]
    refine wp_downloadBlob src (fun t => ?_) hstays
    rw [wp_bind, wp_update, wp_pure]
    refine { hw with image := ?_, shut := ?_, named := ⟨hw.named.sources, hw.named.current⟩,
                     candidate := ?_ }
    · intro img' hi'
      have hi' : s.1.image = some img' := hi'
      rw [himage] at hi'
      obtain rfl := Option.some.inj hi'
      refine ⟨hcur, src, hget, ?_⟩
      intro p hp
      obtain rfl := Option.some.inj hp
      rfl
    · intro hnone
      have hnone : s.1.vault = none := hnone
      rw [hv] at hnone
      cases hnone
    · intro c hc
      have hok := hw.candidate c hc
      exact ⟨hok.sound, hok.idle, hok.image, hok.named, hok.job⟩

/-- `retry` leaves disk and image as they are. -/
theorem wp_retry (hw : Inv s.1) :
    wp retry (fun _ s' => Stays s.1 s'.1) (Ends (Stays s.1)) s := by
  unfold retry
  rw [wp_bind, wp_self]
  cases s.1.prepared with
  | none => exact fun _ => Stays.refl hw
  | some p => exact Stays.refl hw

/-- `clearCaches` leaves disk and image as they are. -/
theorem wp_clearCaches (hw : Inv s.1) (hv : s.1.vault = some e) :
    wp (clearCaches env) (fun _ s' => Stays s.1 s'.1) (Ends (Stays s.1)) s := by
  have hs := hw.sound e hv
  have hmeets : ∀ io : Io, io.Within anyHost →
      Engine.Meets anyHost (e, s.2) .clearCache (Engine.clearCache (P := P)) fun _ => .unit := by
    intro io _
    exact .clearCache
  unfold clearCaches
  rw [wp_bind]
  refine wp_call hmeets hv ?_ ?_
  · intro _ e' t hd
    have hsound : Sound e → Sound e' := fun hs => ⟨hd.wf hs.wf, hd.live hs.live⟩
    have hstays : Stays s.1 (s.1.put e') := by
      cases hd with
      | clearCache =>
        refine (Stays.refl hw).put hv ⟨rfl, rfl, ?_, ?_, hsound⟩ (hw.idle e hv)
        · intro img hi
          refine ⟨{ img with cache := Cache.new }, ?_, rfl⟩
          dsimp only
          rw [hi]
          rfl
        · intro hnone
          dsimp only
          rw [hnone]
          rfl
    rw [wp_bind]
    exact wp_ofResult (fun _ _ => hstays) (fun _ _ _ => hstays)
  · intro st e' t hstop _
    exact (Stays.refl hw).stopped hv hstop

/-- Asking a publication to prefetch changes nothing here. -/
theorem wp_setLoadPrefetch {Q : Unit → State P × Nat → Prop} (hv : s.1.vault = some e)
    (hs : Sound e) (hi : e.image ≠ none) (hok : Q () s)
    (hstop : ∀ err, env.setLoadPrefetch = .error err → s.1.remote.isSome = true → R s.1) :
    wp (setLoadPrefetch env) Q (Ends R) s := by
  unfold setLoadPrefetch
  rw [wp_bind, wp_self]
  cases hr : s.1.remote with
  | none => exact hok
  | some r =>
    dsimp only
    rw [wp_bind]
    refine wp_description hv hs (fun _ _ _ _ _ => ?_) (fun hnone => absurd hnone hi)
    exact wp_ofResult (fun _ _ => hok) (fun err herr _ => hstop err herr (by rw [hr]; rfl))

/-- A publication that is current prefetches when it is asked to. -/
def Env.Calm (env : Env) (w : State P) : Prop :=
  w.remote.isSome = true → env.setLoadPrefetch = .ok ()

/-- A candidate without a startup job has the publication prefetch. -/
def Env.CalmCommit (env : Env) (w : State P) : Prop :=
  ∀ c, w.stateCandidate = some c → c.prefetchId = none → env.Calm w

/-- `discard` drops the changes of the image, and nothing else. -/
theorem wp_discard (hw : Inv s.1) (hv : s.1.vault = some e) :
    wp (discard env) (fun _ s' => Inv s'.1 ∧
        ∃ img, s.1.image = some img ∧ s'.1.image = some { img with dirty := ∅ })
      (Ends fun w => Inv w ∧ (env.Calm s.1 → Stays s.1 w)) s := by
  have hs := hw.sound e hv
  unfold discard
  rw [wp_bind]
  refine wp_call (fun io _ => Engine.meets_discard hs.wf) hv ?_ ?_
  · intro _ e' t hd
    have hs' : Sound e' := ⟨hd.wf hs.wf, hd.live hs.live⟩
    obtain ⟨img, hi, hi', hb'⟩ : ∃ img, e.image = some img ∧
        e'.image = some { img with dirty := ∅ } ∧ e'.build = none := by
      cases hd with
      | discard hi => exact ⟨_, hi, rfl, rfl⟩
    have hsome : e'.image ≠ none := by
      rw [hi']
      exact Option.some_ne_none _
    have hput : Inv (s.1.put e') := by
      refine hw.put hv hs' hb' ⟨?_, fun hnone => absurd hnone hsome⟩
      intro img' h
      rw [hi'] at h
      obtain rfl := Option.some.inj h
      exact ⟨img, hi, rfl⟩
    have hinv : Inv { s.1.put e' with restoredOrigin := none, freshRestore := false } := by
      refine { hput with named := ⟨hw.named.sources, hw.named.current⟩, candidate := ?_ }
      intro c hc
      have hok := hw.candidate c hc
      exact ⟨hok.sound, hok.idle, hok.image, hok.named, hok.job⟩
    have hdropped : ∃ img, s.1.image = some img ∧ e'.image = some { img with dirty := ∅ } :=
      ⟨img, (State.image_of_vault hv).trans hi, hi'⟩
    rw [wp_bind, wp_update, wp_bind]
    refine wp_setLoadPrefetch (e := e') rfl hs' hsome ?_ ?_
    · exact wp_described (e := e') rfl hs' (fun _ => ⟨hinv, hdropped⟩)
        (fun hnone => absurd hnone hsome)
    · intro err herr hremote
      refine ⟨hinv, ?_⟩
      intro hcalm
      rw [hcalm hremote] at herr
      cases herr
  · intro st e' t hstop _
    have hstays := (Stays.refl hw).stopped hv hstop
    exact ⟨hstays.inv hw, fun _ => hstays⟩

/-- The candidate may become the vault. -/
theorem inv_installed {c : Candidate P} (hw : Inv s.1) (hv : s.1.vault = some e)
    {img : Image} (hi : e.image = some img) (hc : c.Ok s.1) (hsource : c.source = s.1.current) :
    Inv (installed s.1 c) := by
  obtain ⟨img', hi', hsrc⟩ := hc.image
  obtain ⟨hcur, src, hget, -⟩ := hw.image img ((State.image_of_vault hv).trans hi)
  have hcurrent : s.1.current = some img'.source := hsource.symm.trans hsrc
  have hsame : img.source = img'.source := by
    rw [hcur] at hcurrent
    exact Option.some.inj hcurrent
  rw [hsame] at hget
  refine Inv.opened (w := installed s.1 c) rfl hc.sound hc.idle hi' hcurrent hget ?_
    ⟨hw.named.sources, hw.named.current⟩ ?_
  · intro p hp
    cases hp
  · intro c' hc'
    cases hc'

/-- `commitState` takes the vault of the candidate with its token. -/
theorem wp_commitState (hw : Inv s.1) (hv : s.1.vault = some e) (token : Nat) :
    wp (commitState env token) (fun _ s' => Inv s'.1 ∧
        ∃ c, s.1.stateCandidate = some c ∧ c.token = token ∧ s'.1.vault = some c.vault)
      (Ends fun w => Inv w ∧ (env.CalmCommit s.1 → Stays s.1 w)) s := by
  have hs := hw.sound e hv
  have hsame : Inv s.1 ∧ (env.CalmCommit s.1 → Stays s.1 s.1) := ⟨hw, fun _ => Stays.refl hw⟩
  unfold commitState
  rw [wp_bind, wp_self]
  cases hcand : s.1.stateCandidate with
  | none => exact fun _ => hsame
  | some c =>
    have hc := hw.candidate c hcand
    dsimp only
    rw [wp_bind]
    refine wp_require (fun htoken => ?_) (fun _ _ => hsame)
    rw [wp_bind]
    refine wp_description hv hs (fun d img hi _ _ => ?_) (fun _ => hsame)
    dsimp only
    rw [wp_bind]
    refine wp_require (fun hfresh => ?_) (fun _ _ => hsame)
    rw [wp_bind]
    refine wp_poll ?_ hsame
    have hinv := inv_installed hw hv hi hc hfresh.2
    obtain ⟨img', hi', -⟩ := hc.image
    have hsome : c.vault.image ≠ none := by
      rw [hi']
      exact Option.some_ne_none img'
    have hdone : ∀ t, wp (described env) (fun _ s' => Inv s'.1 ∧
        ∃ c', some c = some c' ∧ c'.token = token ∧ s'.1.vault = some c'.vault)
        (Ends fun w => Inv w ∧ (env.CalmCommit s.1 → Stays s.1 w)) (installed s.1 c, t) := by
      intro t
      exact wp_described (e := c.vault) rfl hc.sound
        (fun _ => ⟨hinv, c, rfl, htoken.symm, rfl⟩) (fun hnone => absurd hnone hsome)
    rw [wp_bind, wp_update]
    cases hp : c.prefetchId with
    | some id =>
      dsimp only
      rw [wp_bind]
      refine wp_require (fun _ => hdone _) (fun hjob => ?_)
      exact absurd (hc.job id hp hfresh.2) hjob
    | none =>
      dsimp only
      rw [wp_bind]
      refine wp_setLoadPrefetch (e := c.vault) rfl hc.sound hsome (hdone _) ?_
      intro err herr hremote
      refine ⟨hinv, ?_⟩
      intro hcalm
      rw [hcalm c hcand hp hremote] at herr
      cases herr

/-- What a method of a publication leaves of an entry. -/
theorem Sources.update_entry (sources : Sources) (id : String) (f : Remote → Remote) :
    ∃ g : String × Source → String × Source, sources.update id f = sources.map g ∧
      ∀ x, (g x).1 = x.1 ∧ (g x).2.bytes = x.2.bytes := by
  refine ⟨_, rfl, ?_⟩
  intro x
  dsimp only
  split
  · split
    · exact ⟨rfl, rfl⟩
    · exact ⟨rfl, rfl⟩
  · exact ⟨rfl, rfl⟩

/-- An update of one source leaves the bytes of all of them. -/
theorem Sources.get_update (sources : Sources) (id id' : String) (f : Remote → Remote) :
    ((sources.update id f).get id').map (·.bytes) = (sources.get id').map (·.bytes) := by
  obtain ⟨g, hg, hkeep⟩ := sources.update_entry id f
  rw [hg]
  unfold Sources.get
  rw [List.find?_map]
  have hsame : (fun e : String × Source => decide (e.1 = id')) ∘ g = fun e => decide (e.1 = id') := by
    funext x
    simp [(hkeep x).1]
  rw [hsame]
  cases sources.find? fun e => decide (e.1 = id') with
  | none => rfl
  | some x => exact congrArg some (hkeep x).2

/-- A publication may change its jobs while there is no candidate. -/
theorem Inv.jobs {w : State P} (hw : Inv w) (hcand : w.stateCandidate = none) (id : String)
    (f : Remote → Remote) : Inv { w with sources := w.sources.update id f } := by
  obtain ⟨g, hg, hkeep⟩ := w.sources.update_entry id f
  refine ⟨hw.sound, hw.idle, ?_, ?_, hw.shut, ⟨?_, hw.named.current⟩, ?_⟩
  · intro img hi
    obtain ⟨hcur, src, hget, hprep⟩ := hw.image img hi
    have hmap := w.sources.get_update id img.source f
    rw [hget] at hmap
    obtain ⟨src', hget', hbytes⟩ := Option.map_eq_some_iff.mp hmap
    refine ⟨hcur, src', hget', ?_⟩
    intro p hp
    rw [hbytes]
    exact hprep p hp
  · intro hnone
    have hinput := hw.closed hnone
    unfold State.input at hinput ⊢
    cases hcur : w.current with
    | none => rfl
    | some cur =>
      rw [hcur] at hinput
      have hinput : w.sources.get cur = none := hinput
      have hmap := w.sources.get_update id cur f
      rw [hinput] at hmap
      exact Option.map_eq_none_iff.mp hmap
  · intro x hx
    have hx : x ∈ w.sources.update id f := hx
    rw [hg] at hx
    obtain ⟨y, hy, rfl⟩ := List.mem_map.mp hx
    rw [(hkeep y).1]
    exact hw.named.sources y hy
  · intro c hc
    have hc : w.stateCandidate = some c := hc
    rw [hcand] at hc
    cases hc

/-- A candidate may be dropped at any time. -/
theorem Inv.dropped {w : State P} (hw : Inv w) : Inv { w with stateCandidate := none } := by
  refine { hw with named := ⟨hw.named.sources, hw.named.current⟩, candidate := ?_ }
  intro c hc
  cases hc

/-- What a request leaves that only works beside the vault. -/
structure Aside (w w' : State P) : Prop where
  inv : Inv w'
  vault : w'.vault = w.vault
  bytes : ∀ id, (w'.sources.get id).map (·.bytes) = (w.sources.get id).map (·.bytes)

/-- While a state is prepared there is no candidate. -/
structure Preparing (w w' : State P) : Prop extends Aside w w' where
  none : w'.stateCandidate = none

/-- The source of a state is opened beside the disk. -/
theorem wp_stateSource {w : State P} {Q : Option Nat → State P × Nat → Prop} (h : Preparing w s.1)
    (hv : w.vault = some e) (hok : ∀ p s', Preparing w s'.1 → Q p s')
    (published prefetch : Bool) :
    wp (stateSource env published prefetch) Q (Ends (Preparing w)) s := by
  have hv' : s.1.vault = some e := h.vault.trans hv
  have hs := h.inv.sound e hv'
  unfold stateSource
  rw [wp_bind, wp_self, wp_ite]
  constructor
  · intro _
    split
    next id remote hid hremote =>
      unfold startupJob
      rw [wp_bind, wp_ite]
      constructor
      · intro _
        rw [wp_bind]
        refine wp_description hv' hs (fun _ _ _ _ _ => ?_) (fun _ => h)
        rw [wp_map]
        unfold startStartupPrefetch
        rw [wp_bind]
        refine wp_ofResult (fun _ _ => ?_) (fun _ _ _ => h)
        rw [wp_bind, wp_update, wp_pure, wp_bind]
        have h' : ∀ f : Remote → Remote,
            Preparing w { s.1 with sources := s.1.sources.update id f } :=
          fun f => ⟨⟨h.inv.jobs h.none id f, h.vault,
            fun id' => (s.1.sources.get_update id id' f).trans (h.bytes id')⟩, h.none⟩
        exact wp_ofResult (fun _ _ => hok _ _ (h' _)) (fun _ _ _ => h' _)
      · intro _
        rw [wp_pure, wp_bind]
        exact wp_ofResult (fun _ _ => hok _ _ h) (fun _ _ _ => h)
    · exact fun _ => h
  · intro _
    rw [wp_ite]
    exact ⟨fun _ _ => h, fun _ => hok _ _ h⟩

/-- `fork_state` makes a sound candidate, or stops; the engine it is called on stays. -/
theorem wp_fork {Q : Engine P → Engine P × Nat → Prop} {E : Stop → Engine P × Nat → Prop} {t : Nat}
    (hs : Sound e) (hb : e.build = none) (bytes : Bytes)
    (hok : ∀ img dirty, e.image = some img → Sound (e.forked img dirty) →
      Q (e.forked img dirty) (e, t))
    (hstop : ∀ st, E st (e, t)) : wp (Engine.forkState bytes) Q E (e, t) := by
  cases hi : e.image with
  | none =>
    refine wp_intro ?_ ?_
    · intro a s' h
      have hres : Engine.forkState bytes (e, t) = .error Engine.noDisk (e, t) := by
        unfold Engine.forkState
        show EStateM.bind Engine.self _ (e, t) = _
        simp only [EStateM.bind, Engine.self, get_apply, pure, EStateM.pure, bind, require, hb,
          Option.isNone_none, if_true, hi]
        rfl
      rw [hres] at h
      cases h
    · intro st s' h
      have hkeep := wp_of_error (forkState_keeps bytes (e, t)) h
      rw [hkeep]
      exact hstop st
  | some img =>
    have heq := forkState_eq hs.live hi hb bytes t
    have hwf : wp (Engine.forkState bytes) _ _ (e, t) := wp_forkState hs.wf
    unfold wp at hwf ⊢
    rw [heq] at hwf ⊢
    cases hparse : Engine.parseOverlay img.size bytes.length none ∅ bytes with
    | error err => exact hstop _
    | ok dirty =>
      rw [hparse] at hwf
      refine hok img dirty hi ⟨hwf, ?_, ?_⟩
      · intro img' hi'
        obtain rfl := Option.some.inj hi'
        exact hs.live.image img hi
      · intro b hb'
        cases hb'

/-- `prepareState` makes a candidate beside the disk. -/
theorem wp_prepareState (hw : Inv s.1) (hv : s.1.vault = some e) (published prefetch : Bool) :
    wp (prepareState env published prefetch) (fun _ s' => Aside s.1 s'.1) (Ends (Aside s.1)) s := by
  have hs := hw.sound e hv
  have hb := hw.idle e hv
  have hstart : Preparing s.1 { s.1 with stateCandidate := none } :=
    ⟨⟨hw.dropped, rfl, fun _ => rfl⟩, rfl⟩
  unfold prepareState dropState
  rw [wp_bind, wp_update, wp_bind]
  refine wp_mono (wp_stateSource (Q := fun _ s' => Preparing s.1 s'.1) hstart hv
    (fun _ _ h => h) published prefetch) ?_ (fun st s' h hne => (h hne).toAside)
  intro prefetchId s₁ h₁
  have hv₁ : s₁.1.vault = some e := h₁.vault.trans hv
  have hsame := h₁.toAside
  rw [wp_bind]
  refine wp_ofResult (fun decoded _ => ?_) (fun _ _ _ => hsame)
  rw [wp_bind, wp_self, wp_bind]
  refine wp_require (fun _ => ?_) (fun _ _ => hsame)
  rw [wp_bind]
  refine wp_require (fun hjob => ?_) (fun _ _ => hsame)
  rw [wp_bind]
  refine wp_poll ?_ hsame
  rw [wp_bind]
  refine wp_onVault hv₁ (wp_fork hs hb decoded.overlay ?_ ?_)
  · intro img dirty hi hfork
    rw [State.put_self hv₁, wp_bind]
    refine wp_description hv₁ hs (fun d _ _ _ _ => ?_) (fun _ => hsame)
    dsimp only
    rw [wp_bind, wp_update, wp_pure]
    obtain ⟨hcur, -⟩ := h₁.inv.image img ((State.image_of_vault hv₁).trans hi)
    refine ⟨?_, h₁.vault, h₁.bytes⟩
    refine { h₁.inv with named := ⟨h₁.inv.named.sources, h₁.inv.named.current⟩, candidate := ?_ }
    intro c hc
    obtain rfl := Option.some.inj hc
    refine ⟨hfork, rfl, ⟨_, rfl, hcur⟩, h₁.inv.named.current, ?_⟩
    intro p hp _
    exact hjob p hp
  · intro st _
    rw [State.put_self hv₁]
    exact hsame

/-- The candidate read from, and it is still one. -/
theorem Candidate.Ok.kept {c : Candidate P} {w : State P} {e' : Engine P} (h : c.Ok w)
    (ha : Alike c.vault e') (hb : e'.build = c.vault.build) : ({ c with vault := e' } : Candidate P).Ok w := by
  obtain ⟨img, hi, hsrc⟩ := h.image
  obtain ⟨img', hi', hlike⟩ := ha.image img hi
  refine ⟨ha.sound h.sound, hb.trans h.idle, ⟨img', hi', ?_⟩, h.named, h.job⟩
  rw [hlike]
  exact hsrc

/-- A candidate is read beside the disk. -/
theorem wp_candidateRead (hw : Inv s.1) (token offset length : Nat) :
    wp (candidateRead env token offset length) (fun _ s' => Aside s.1 s'.1) (Ends (Aside s.1)) s := by
  unfold candidateRead
  rw [wp_bind, wp_self]
  cases hcand : s.1.stateCandidate with
  | none => exact fun _ => ⟨hw, rfl, fun _ => rfl⟩
  | some c =>
    have hc := hw.candidate c hcand
    have hput : ∀ e', Alike c.vault e' → e'.build = c.vault.build →
        Inv { s.1 with stateCandidate := some { c with vault := e' } } := by
      intro e' ha hb
      refine { hw with named := ⟨hw.named.sources, hw.named.current⟩, candidate := ?_ }
      intro c' hc'
      obtain rfl := Option.some.inj hc'
      have hok := hc.kept ha hb
      exact ⟨hok.sound, hok.idle, hok.image, hok.named, hok.job⟩
    dsimp only
    rw [wp_bind]
    refine wp_require (fun _ => ?_) (fun _ _ => ⟨hw, rfl, fun _ => rfl⟩)
    rw [wp_bind, wp_zoom]
    refine wp_mono (Engine.meets_read (s := (c.vault, s.2)) hc.sound.wf
      (within_any (env.io s.1.sources)) offset length) ?_ ?_
    · intro b t hd
      cases hd with
      | read hk hi hbound hlen hout =>
        exact ⟨hput _ (Alike.of_kept hk) (by rw [hk.same]), rfl, fun _ => rfl⟩
    · intro st t hst _
      obtain ⟨ha, hb⟩ := Alike.of_stopped hst.2
      exact ⟨hput _ ha hb, rfl, fun _ => rfl⟩

/-- `discardState` drops the candidate. -/
theorem wp_discardState (hw : Inv s.1) (token : Nat) :
    wp (discardState token) (fun _ s' => Inv s'.1) (Ends (Stays s.1)) s := by
  unfold discardState dropState
  rw [wp_bind, wp_self, wp_ite]
  constructor
  · intro _
    rw [wp_bind, wp_update, wp_pure]
    exact hw.dropped
  · intro _
    exact hw

/-- Requests that look at the disk and change nothing of it. -/
theorem wp_originFor {Q : Unit → State P × Nat → Prop} {kind : Origin} (hok : Q () s)
    (hstop : R s.1) : wp (originFor kind) Q (Ends R) s := by
  unfold originFor
  rw [wp_bind, wp_self]
  exact wp_require (fun _ => hok) (fun _ _ => hstop)

/-- The flags of the analysis are no part of the invariant. -/
theorem Inv.analysis {w : State P} (hw : Inv w) (analysis fresh : Bool) :
    Inv { w with bootAnalysis := analysis, freshRestore := fresh } := by
  refine { hw with named := ⟨hw.named.sources, hw.named.current⟩, candidate := ?_ }
  intro c hc
  have hok := hw.candidate c hc
  exact ⟨hok.sound, hok.idle, hok.image, hok.named, hok.job⟩

/-- `startLoadAnalysis` keeps the invariant. -/
theorem wp_startLoadAnalysis (hw : Inv s.1) (hv : s.1.vault = some e) (kind : Origin) :
    wp (startLoadAnalysis env kind) (fun _ s' => Inv s'.1) (Ends (Stays s.1)) s := by
  have hstays := Stays.refl hw
  unfold startLoadAnalysis
  rw [wp_bind]
  refine wp_description hv (hw.sound e hv) (fun d img _ _ _ => ?_) (fun _ => hstays)
  dsimp only
  rw [wp_bind]
  refine wp_originFor ?_ hstays
  rw [wp_bind, wp_self, wp_bind]
  refine wp_require (fun _ => ?_) (fun _ _ => hstays)
  rw [wp_bind, wp_update, wp_pure]
  exact hw.analysis true false

/-- `startBootAnalysis` keeps the invariant. -/
theorem wp_startBootAnalysis (hw : Inv s.1) (hv : s.1.vault = some e) :
    wp (startBootAnalysis env) (fun _ s' => Inv s'.1) (Ends (Stays s.1)) s := by
  have hstays := Stays.refl hw
  unfold startBootAnalysis
  rw [wp_bind]
  refine wp_description hv (hw.sound e hv) (fun d img _ _ _ => ?_) (fun _ => hstays)
  dsimp only
  rw [wp_bind, wp_self, wp_bind]
  refine wp_require (fun _ => ?_) (fun _ _ => hstays)
  rw [wp_bind, wp_update, wp_pure]
  exact hw.analysis true s.1.freshRestore

/-- `finishAnalysis` keeps the invariant. -/
theorem wp_finishAnalysis (hw : Inv s.1) :
    wp (finishAnalysis env) (fun _ s' => Inv s'.1) (Ends (Stays s.1)) s := by
  have hstays := Stays.refl hw
  unfold finishAnalysis
  rw [wp_bind, wp_self, wp_bind]
  refine wp_require (fun _ => ?_) (fun _ _ => hstays)
  rw [wp_bind]
  refine wp_ofResult (fun _ _ => ?_) (fun _ _ _ => hstays)
  rw [wp_bind, wp_update, wp_pure]
  exact hw.analysis false s.1.freshRestore

/-- `selectPrefetch` keeps the invariant. -/
theorem wp_selectPrefetch (hw : Inv s.1) (hv : s.1.vault = some e) (kind : Origin) (scope : String) :
    wp (selectPrefetch env kind scope) (fun _ s' => Inv s'.1) (Ends (Stays s.1)) s := by
  have hstays := Stays.refl hw
  unfold selectPrefetch setLoadPrefetch
  rw [wp_bind]
  refine wp_originFor ?_ hstays
  rw [wp_bind]
  refine wp_require (fun _ => ?_) (fun _ _ => hstays)
  rw [wp_bind, wp_bind, wp_self]
  cases s.1.remote with
  | none => exact hw
  | some r =>
    dsimp only
    rw [wp_bind]
    refine wp_description hv (hw.sound e hv) (fun _ _ _ _ _ => ?_) (fun _ => hstays)
    exact wp_ofResult (fun _ _ => hw) (fun _ _ _ => hstays)

/-- `saveState` keeps the invariant. -/
theorem wp_saveState (hw : Inv s.1) (hv : s.1.vault = some e) :
    wp (saveState env) (fun _ s' => Inv s'.1) (Ends (Stays s.1)) s := by
  have hstays := Stays.refl hw
  unfold saveState
  rw [wp_bind]
  refine wp_description hv (hw.sound e hv) (fun _ _ _ _ _ => ?_) (fun _ => hstays)
  rw [wp_bind]
  refine wp_ofResult (fun _ _ => ?_) (fun _ _ _ => hstays)
  rw [wp_bind]
  exact wp_poll hw hstays

/-- A question to the page keeps the invariant. -/
theorem wp_ask (hw : Inv s.1) (q : Query) :
    wp (ask env q) (fun _ s' => Inv s'.1) (Ends (Stays s.1)) s := by
  have hstays := Stays.refl hw
  have hasked : wp (do ofResult env.asked; pure Reply.null : Async (State P) Reply)
      (fun _ s' => Inv s'.1) (Ends (Stays s.1)) s := by
    rw [wp_bind]
    exact wp_ofResult (fun _ _ => hw) (fun _ _ _ => hstays)
  unfold ask
  rw [wp_bind, wp_self]
  cases q with
  | signRelayChallenge =>
    dsimp only
    rw [wp_bind]
    exact wp_require (fun _ => hasked) (fun _ _ => hstays)
  | waitLoadPrefetch id =>
    dsimp only
    rw [wp_bind]
    exact wp_require (fun _ => hasked) (fun _ _ => hstays)
  | _ => exact hasked

end Disk

end My98.Web.Worker
