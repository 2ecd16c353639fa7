/-
  My98.Web.WorkerRuns — runs of the disk Worker: its sources, and what an error leaves.

    • `wp_execute`       — one request ends with the invariant, or it has `Failed`;
    • `source_invariant` — in every state of a run the open image reads from the current source,
      and a failed open, create or save leaves the Worker where it was;
    • `error_keeps_disk` — an error reply leaves the content of the open disk alone.

  Both hold of the runs in which nothing fails AFTER a request has changed the disk.  The other
  runs are real: `openRemote_leaves_image` and `discard_error_drops` follow one of each.
-/
import Mathlib.Algebra.Order.Ring.Nat
import Mathlib.Tactic.Common
import My98.Web.WorkerDisk

namespace My98.Web.Worker

open My98.Lib My98.Disk My98.Crypto

variable {P : Primitives} {α : Type}

/-! ## §1. One request. -/

/-- The requests that open, create or save a disk. -/
def Op.opens : Op → Bool
  | .openReadOnly _ _ => true
  | .openRemoteReadOnly _ _ => true
  | .createEmpty _ => true
  | .create _ => true
  | .openFile _ => true
  | .openRemote _ _ => true
  | .save => true
  | _ => false

/-- `openRemote` does not fail once the vault is open. -/
def Op.Settles (op : Op) (env : Env) : Prop := ∀ a k, op = .openRemote a k → env.Settles

/-- `discard` and `commitState` do not fail once the disk has changed. -/
def Op.Calm (op : Op) (env : Env) (w : State P) : Prop :=
  match op with
  | .discard => env.Calm w
  | .commitState _ => env.CalmCommit w
  | _ => True

/-- The open image is the same up to its cache, and the sources hold the same bytes. -/
structure SameDisk (w w' : State P) : Prop where
  image : SameImage w w'
  bytes : ∀ id, (w'.sources.get id).map (·.bytes) = (w.sources.get id).map (·.bytes)

/-- What a request that failed has left. -/
structure Failed (env : Env) (op : Op) (w w' : State P) : Prop where
  inv : Inv w'
  disk : op.Calm env w → SameDisk w w'
  again : op.opens = true → Stays w w'

/-- What a request that restores or discards has done. -/
def Effect (op : Op) (w w' : State P) : Prop :=
  match op with
  | .commitState token =>
    ∃ c, w.stateCandidate = some c ∧ c.token = token ∧ w'.vault = some c.vault
  | .discard => ∃ img, w.image = some img ∧ w'.image = some { img with dirty := ∅ }
  | _ => True

section Request

variable {s : State P × Nat} {env : Env} {e : Engine P} {op : Op}

/-- A Worker that stays has the same disk. -/
theorem Stays.sameDisk {w w' : State P} (h : Stays w w') : SameDisk w w' := by
  refine ⟨SameImage.of_rel h.near.vault, ?_⟩
  intro id
  rw [h.near.sources, List.append_nil]

/-- It is what a failed request may leave. -/
theorem Stays.failed {w w' : State P} (h : Stays w w') (hw : Inv w) : Failed env op w w' :=
  ⟨h.inv hw, fun _ => h.sameDisk, fun _ => h⟩

/-- So is a Worker that only put something aside. -/
theorem Aside.sameDisk {w w' : State P} (h : Aside w w') : SameDisk w w' :=
  ⟨SameImage.of_rel (h.vault ▸ rel_refl _), h.bytes⟩

/-- A request that ends as it should, or stays. -/
theorem wp_ends {c : Async (State P) Reply} (hw : Inv s.1) (heffect : ∀ w, Effect op s.1 w)
    (h : wp c (fun _ s' => Inv s'.1) (Ends (Stays s.1)) s) :
    wp c (fun _ s' => Inv s'.1 ∧ Effect op s.1 s'.1) (Ends (Failed env op s.1)) s :=
  wp_mono h (fun _ _ hinv => ⟨hinv, heffect _⟩) (fun _ _ hst hne => (hst hne).failed hw)

/-- A request that leaves the vault alone, however it ends. -/
theorem wp_aside {c : Async (State P) Reply} (heffect : ∀ w, Effect op s.1 w)
    (hopens : op.opens = false) (h : wp c (fun _ s' => Aside s.1 s'.1) (Ends (Aside s.1)) s) :
    wp c (fun _ s' => Inv s'.1 ∧ Effect op s.1 s'.1) (Ends (Failed env op s.1)) s := by
  refine wp_mono h (fun _ _ h => ⟨h.inv, heffect _⟩) ?_
  intro st s' hst hne
  refine ⟨(hst hne).inv, fun _ => (hst hne).sameDisk, ?_⟩
  intro h
  rw [hopens] at h
  cases h

/-- A request that changes the disk and then asks a publication to prefetch. -/
theorem wp_late {c : Async (State P) Reply} (hopens : op.opens = false)
    (h : wp c (fun _ s' => Inv s'.1 ∧ Effect op s.1 s'.1)
      (Ends fun w => Inv w ∧ (op.Calm env s.1 → Stays s.1 w)) s) :
    wp c (fun _ s' => Inv s'.1 ∧ Effect op s.1 s'.1) (Ends (Failed env op s.1)) s := by
  refine wp_mono h (fun _ _ h => h) ?_
  intro st s' hst hne
  obtain ⟨hinv, hstays⟩ := hst hne
  refine ⟨hinv, fun hcalm => (hstays hcalm).sameDisk, ?_⟩
  intro h
  rw [hopens] at h
  cases h

/-- A request that stays keeps the invariant. -/
theorem wp_stays {c : Async (State P) Reply} (hw : Inv s.1)
    (h : wp c (fun _ s' => Stays s.1 s'.1) (Ends (Stays s.1)) s) :
    wp c (fun _ s' => Inv s'.1) (Ends (Stays s.1)) s :=
  wp_mono h (fun _ _ hst => hst.inv hw) (fun _ _ hst => hst)

/-- **The `switch`**, one case a request. -/
theorem wp_dispatch (hw : Inv s.1) (hv : s.1.vault = some e) (hsettles : op.Settles env) :
    wp (dispatch env op) (fun _ s' => Inv s'.1 ∧ Effect op s.1 s'.1) (Ends (Failed env op s.1)) s := by
  have hstays := Stays.refl hw
  have heffect : ∀ w : State P, True := fun _ => trivial
  cases op with
  | startLoadAnalysis kind => exact wp_ends hw heffect (wp_startLoadAnalysis hw hv kind)
  | setLoadPrefetch kind scope => exact wp_ends hw heffect (wp_selectPrefetch hw hv kind scope)
  | startBootAnalysis => exact wp_ends hw heffect (wp_startBootAnalysis hw hv)
  | finishAnalysis => exact wp_ends hw heffect (wp_finishAnalysis hw)
  | cancelAnalysis => exact ⟨hw.analysis false s.1.freshRestore, trivial⟩
  | createEmpty size => exact wp_ends hw heffect (wp_createEmpty hw hv size)
  | create file => exact wp_ends hw heffect (wp_createFrom hw hv _)
  | openFile file => exact wp_ends hw heffect (wp_openFile hw hv file)
  | openRemote a k => exact wp_ends hw heffect (wp_openRemote hw hv (hsettles a k rfl) a k)
  | saveState => exact wp_ends hw heffect (wp_saveState hw hv)
  | prepareState published prefetch =>
    exact wp_aside heffect rfl (wp_prepareState hw hv published prefetch)
  | candidateRead token offset length =>
    exact wp_aside heffect rfl (wp_candidateRead hw token offset length)
  | discardState token => exact wp_ends hw heffect (wp_discardState hw token)
  | commitState token => exact wp_late rfl (wp_commitState hw hv token)
  | ask q => exact wp_ends hw heffect (wp_ask hw q)
  | describe =>
    exact wp_ends hw heffect
      (wp_described hv (hw.sound e hv) (fun _ => hw) (fun _ => hstays))
  | read offset length => exact wp_ends hw heffect (wp_stays hw (wp_read hw hv offset length))
  | write offset bytes => exact wp_ends hw heffect (wp_write hw hv offset bytes)
  | save => exact wp_ends hw heffect (wp_save hw hv)
  | download => exact wp_ends hw heffect (wp_download hw hv)
  | retry => exact wp_ends hw heffect (wp_stays hw (wp_retry hw))
  | discard => exact wp_late rfl (wp_discard hw hv)
  | verify => exact wp_ends hw heffect (wp_stays hw (wp_verify hw hv))
  | clearCaches => exact wp_ends hw heffect (wp_stays hw (wp_clearCaches hw hv))
  | close => exact ⟨inv_closed _, trivial⟩
  | openReadOnly file key => exact fun _ => hstays.failed hw
  | openRemoteReadOnly a key => exact fun _ => hstays.failed hw
  | unlock username password machine => exact fun _ => hstays.failed hw
  | unknown => exact fun _ => hstays.failed hw

/-- **Every request** keeps the invariant and has its effect, or has failed as it may. -/
theorem wp_execute (hw : Inv s.1) (hsettles : op.Settles env) :
    wp (execute env op) (fun _ s' => Inv s'.1 ∧ Effect op s.1 s'.1) (Ends (Failed env op s.1)) s := by
  have hfailed : Failed env op s.1 s.1 := (Stays.refl hw).failed hw
  unfold execute
  rw [wp_bind, wp_self]
  split
  · exact ⟨hw, trivial⟩
  · rw [wp_ite]
    refine ⟨fun _ _ => hfailed, fun _ => ?_⟩
    split
    · exact wp_ends hw (fun _ => trivial) (wp_openReadOnly' hw _ _)
    · exact wp_ends hw (fun _ => trivial) (wp_openRemoteReadOnly hw _ _)
    · exact wp_ends hw (fun _ => trivial) (wp_unlock hw _ _ _)
    · rw [wp_ite]
      refine ⟨fun _ _ => hfailed, fun hsome => ?_⟩
      rw [wp_ite]
      refine ⟨fun _ _ => hfailed, fun _ => ?_⟩
      cases hv : s.1.vault with
      | none =>
        rw [hv] at hsome
        exact absurd rfl hsome
      | some e => exact wp_dispatch hw hv hsettles

end Request

/-! ## §2. The answer. -/

section Answer

variable {env : Env} {op : Op} {w w' w'' : State P}

/-- Likeness of vaults is transitive. -/
theorem rel_trans {u v x : Option (Engine P)} (h : Option.Rel Alike u v) (h' : Option.Rel Alike v x) :
    Option.Rel Alike u x := by
  cases h with
  | none =>
    cases h' with
    | none => exact .none
  | some ha =>
    cases h' with
    | some ha' => exact .some (ha.trans ha')

/-- A Worker that stays, and stays again. -/
theorem Stays.trans (h : Stays w w') (h' : Stays w' w'') : Stays w w'' := by
  refine ⟨?_, h'.idle⟩
  have hn := h.near
  have hn' := h'.near
  exact
    { vault := rel_trans hn.vault hn'.vault
      sources := by rw [hn'.sources, hn.sources, List.append_nil]
      sourceId := Nat.le_trans hn.sourceId hn'.sourceId
      current := hn'.current.trans hn.current
      prepared := hn'.prepared.trans hn.prepared
      stateCandidate := hn'.stateCandidate.trans hn.stateCandidate
      identity := hn'.identity.trans hn.identity
      bootAnalysis := hn'.bootAnalysis.trans hn.bootAnalysis
      torrentIO := hn'.torrentIO.trans hn.torrentIO }

/-- The same image, and the same again. -/
theorem SameImage.trans (h : SameImage w w') (h' : SameImage w' w'') : SameImage w w'' := by
  refine ⟨fun hnone => h'.1 (h.1 hnone), ?_⟩
  intro img hi
  obtain ⟨img₁, hi₁, hlike⟩ := h.2 img hi
  obtain ⟨img₂, hi₂, hlike'⟩ := h'.2 img₁ hi₁
  exact ⟨img₂, hi₂, hlike.trans hlike'⟩

/-- The same disk, and the same again. -/
theorem SameDisk.trans (h : SameDisk w w') (h' : SameDisk w' w'') : SameDisk w w'' :=
  ⟨h.image.trans h'.image, fun id => (h'.bytes id).trans (h.bytes id)⟩

/-- A vault that is told of the cancellation stops what it was building. -/
theorem stays_cancelVault (w : State P) : Stays w w.cancelVault := by
  have hrel : Option.Rel Alike w.vault w.cancelVault.vault := by
    show Option.Rel Alike w.vault (w.vault.map Engine.cancelled)
    cases w.vault with
    | none => exact .none
    | some e => exact .some (Alike.cancelled e)
  refine ⟨⟨hrel, (List.append_nil _).symm, le_refl _, rfl, rfl, rfl, rfl, rfl, rfl⟩, ?_⟩
  intro e' he'
  have he' : w.vault.map Engine.cancelled = some e' := he'
  obtain ⟨e, -, rfl⟩ := Option.map_eq_some_iff.mp he'
  rfl

/-- A failed request may be followed by a cancellation. -/
theorem Failed.cancelVault (h : Failed env op w w') : Failed env op w w'.cancelVault := by
  have hstays := stays_cancelVault w'
  exact ⟨hstays.inv h.inv, fun hcalm => (h.disk hcalm).trans hstays.sameDisk,
    fun hopens => (h.again hopens).trans hstays⟩

/-- So it may be answered. -/
theorem Failed.answered (h : Failed env op w w') :
    Failed env op w (if env.after then w'.cancelVault else w') := by
  split
  · exact h.cancelVault
  · exact h

/-- **One request**: an answer that is `ok` keeps the invariant, an error has `Failed`. -/
theorem answer_spec (hw : Inv w) (hsettles : op.Settles env) {ok : Bool}
    (h : w.answer env op = some (ok, w')) :
    (ok = true → Inv w' ∧ Effect op w w') ∧ (ok = false → Failed env op w w') := by
  have hexec : wp (execute env op) _ _ (w, 0) := wp_execute hw hsettles
  unfold State.answer at h
  cases hbefore : env.before with
  | true =>
    rw [hbefore, if_pos rfl] at h
    obtain ⟨rfl, rfl⟩ := Prod.mk.inj (Option.some.inj h)
    refine ⟨fun hok => absurd hok Bool.false_ne_true, fun _ => ?_⟩
    exact ((Stays.refl hw).failed hw).answered
  | false =>
    rw [hbefore, if_neg Bool.false_ne_true] at h
    cases hrun : execute env op (w, 0) with
    | ok reply s =>
      rw [hrun] at h
      obtain ⟨rfl, rfl⟩ := Prod.mk.inj (Option.some.inj h)
      have hpost := wp_of_ok hexec hrun
      exact ⟨fun _ => hpost, fun hok => absurd hok.symm Bool.false_ne_true⟩
    | error st s =>
      rw [hrun] at h
      have hfailed := wp_of_error hexec hrun
      by_cases hdiverged : st = .diverged
      · subst hdiverged
        cases h
      · have hanswer : some (false, if env.after then s.1.cancelVault else s.1) = some (ok, w') := by
          rw [← h]
          cases st <;> first | rfl | exact absurd rfl hdiverged
        obtain ⟨rfl, rfl⟩ := Prod.mk.inj (Option.some.inj hanswer)
        exact ⟨fun hok => absurd hok Bool.false_ne_true, fun _ => (hfailed hdiverged).answered⟩

end Answer

/-! ## §3. Runs. -/

/-- The answers a request waits for after the vault has opened a publication. -/
def Event.Settles : Event → Prop
  | .request env op => op.Settles env
  | .torrentPort => True

/-- A step keeps the invariant. -/
theorem step_inv {w w' : State P} {event : Event} (hw : Inv w) (hsettles : event.Settles)
    (h : step w event = some w') : Inv w' := by
  cases event with
  | request env op =>
    obtain ⟨⟨ok, w₁⟩, hanswer, rfl⟩ := Option.map_eq_some_iff.mp h
    obtain ⟨hok, hfailed⟩ := answer_spec hw hsettles hanswer
    cases ok with
    | true => exact (hok rfl).1
    | false => exact (hfailed rfl).inv
  | torrentPort =>
    obtain rfl := Option.some.inj h
    refine { hw with named := ⟨hw.named.sources, hw.named.current⟩, candidate := ?_ }
    intro c hc
    have hok := hw.candidate c hc
    exact ⟨hok.sound, hok.idle, hok.image, hok.named, hok.job⟩

/-- Every run keeps the invariant. -/
theorem run_inv {events : List Event} {w : State P} (hsettles : ∀ event ∈ events, event.Settles)
    (h : run step State.init events = some w) : Inv w :=
  run_invariant (fun _ _ _ hI hok hs => step_inv hI hok hs) events State.init w inv_init
    (throughout_of_mem (fun event he _ => hsettles event he) State.init) h

/-- **What the Worker promises of its sources.** -/
structure ReadsCurrent (w : State P) : Prop where
  current : ∀ img, w.image = some img → w.current = some img.source
  source : ∀ img, w.image = some img → ∃ src, w.sources.get img.source = some src ∧
    ∀ p, w.prepared = some p → p.blob = src.bytes
  closed : w.image = none → w.input = none

/-- The image reads from the current source. -/
theorem Inv.readsCurrent {w : State P} (h : Inv w) : ReadsCurrent w where
  current := fun img hi => (h.image img hi).1
  source := fun img hi => (h.image img hi).2
  closed := h.closed

/-- **The sources of the Worker.**  In every state of a run the open image reads from the current
    source; a request that opens, creates or saves a disk and fails leaves the sources, and the
    Worker ready for the same request. -/
theorem source_invariant {events : List Event} {w : State P}
    (hsettles : ∀ event ∈ events, event.Settles) (h : run step State.init events = some w) :
    ReadsCurrent w ∧ ∀ (env : Env) (op : Op) (w' : State P), op.opens = true → op.Settles env →
      w.answer env op = some (false, w') → w'.sources = w.sources ∧ Stays w w' := by
  have hw := run_inv hsettles h
  refine ⟨hw.readsCurrent, ?_⟩
  intro env op w' hopens hsettled hanswer
  have hstays := ((answer_spec hw hsettled hanswer).2 rfl).again hopens
  exact ⟨hstays.near.sources.trans (List.append_nil _), hstays⟩

/-! Runs over the publication of a disk of five bytes. -/

def demoEnv : Env where
  cancelled := fun _ => false
  readFails := fun _ => none
  random := fun _ _ => some fun _ => 0
  before := false
  after := false
  opened := false
  publication := .ok (⟨"h", [], 0⟩, demoFile "disk")
  setLoadPrefetch := .ok ()
  startPrefetch := .ok ()
  startupOptions := .ok ()
  stateInput := .ok ()
  decoded := .ok ⟨none, "s", []⟩
  encoded := .ok []
  cleared := .ok ()
  analysed := .ok ()
  asked := .ok ()
  rounds := 4

def demoOpen (env : Env) : List Event :=
  [.torrentPort, .request demoEnv (.unlock "u" [1] "m"),
    .request env (.openRemote ⟨false, none⟩ false)]

/-- Nothing fails late in the demo. -/
theorem demoEnv_settles (op : Op) : op.Settles demoEnv := fun _ _ _ => ⟨rfl, rfl⟩

/-- Nor in its run. -/
theorem demoOpen_settles : ∀ event ∈ demoOpen demoEnv, event.Settles := by
  intro event he
  simp only [demoOpen, List.mem_cons, List.not_mem_nil, or_false] at he
  rcases he with rfl | rfl | rfl
  · exact trivial
  · exact demoEnv_settles _
  · exact demoEnv_settles _

/-- Whether an image is open, the current source, and how many sources there are. -/
def State.registered (w : State plain) : Bool × Option String × Nat :=
  (w.image.isSome, w.current, w.sources.length)

/-- A second `openRemote` is refused, and the first disk is still the current one. -/
theorem demoOpen_reads_current : ∃ w w' : State plain,
    run step State.init (demoOpen demoEnv) = some w ∧
      w.answer demoEnv (.openRemote ⟨false, none⟩ false) = some (false, w') ∧
      w.registered = (true, some "source:1", 1) ∧ ReadsCurrent w ∧ w'.sources = w.sources := by
  have hlook : (run step State.init (demoOpen demoEnv)).bind (fun w : State plain =>
      (w.answer demoEnv (.openRemote ⟨false, none⟩ false)).map fun x => (w.registered, x.1))
      = some ((true, some "source:1", 1), false) := by decide +kernel
  obtain ⟨w, hrun, hlook⟩ := Option.bind_eq_some_iff.mp hlook
  obtain ⟨⟨ok, w'⟩, hanswer, hlook⟩ := Option.map_eq_some_iff.mp hlook
  obtain ⟨hregistered, rfl⟩ := Prod.mk.inj hlook
  obtain ⟨hreads, hagain⟩ := source_invariant demoOpen_settles hrun
  exact ⟨w, w', hrun, hanswer, hregistered, hreads,
    (hagain _ _ w' rfl (demoEnv_settles _) hanswer).1⟩

def demoCancelled : Env := { demoEnv with opened := true }

def demoUnfetched : Env :=
  { demoEnv with startPrefetch := .error ⟨"IO_ERROR", "Torrent unavailable"⟩ }

/-- **An image without a source.**  `openRemote` is cancelled right after `vault.open`, or
    `startPrefetch` fails: the error is reported, and the image stays open over a source that is
    no longer there. -/
theorem openRemote_leaves_image :
    ((run step State.init (demoOpen demoCancelled)).map State.registered = some (true, none, 0) ∧
      (run step State.init (demoOpen demoUnfetched)).map State.registered
        = some (true, some "source:1", 0)) ∧
    ¬ ∀ (events : List Event) (w : State plain), run step State.init events = some w →
      ReadsCurrent w := by
  have hcancelled : (run step State.init (demoOpen demoCancelled)).map State.registered
      = some (true, none, 0) := by decide +kernel
  refine ⟨⟨hcancelled, by decide +kernel⟩, ?_⟩
  intro hclaim
  obtain ⟨w, hrun, hlook⟩ := Option.map_eq_some_iff.mp hcancelled
  obtain ⟨hopen, hlook⟩ := Prod.mk.inj hlook
  obtain ⟨img, hi⟩ := Option.isSome_iff_exists.mp hopen
  have hcurrent := (hclaim _ w hrun).current img hi
  rw [(Prod.mk.inj hlook).1] at hcurrent
  cases hcurrent

/-- The vault, reading from its source, serves `content`. -/
def Serves (w : State P) (content : Bytes) : Prop :=
  ∃ img src base, w.image = some img ∧ w.sources.get img.source = some src ∧
    img.Over P (stored fun _ => src.bytes) base ∧ img.content base = content

/-- The same disk serves the same content. -/
theorem SameDisk.serves {w w' : State P} (h : SameDisk w w') {content : Bytes}
    (hs : Serves w content) : Serves w' content := by
  obtain ⟨img, src, base, hi, hget, hover, hcontent⟩ := hs
  obtain ⟨img', hi', hlike⟩ := h.image.2 img hi
  have hbytes := h.bytes img.source
  rw [hget] at hbytes
  obtain ⟨src', hget', hsame⟩ := Option.map_eq_some_iff.mp hbytes
  have hsource : img'.source = img.source := by rw [hlike]
  refine ⟨img', src', base, hi', hsource ▸ hget', ?_, (hlike.content base).trans hcontent⟩
  rw [hsame]
  exact hlike.over P hover

/-- Sameness of disks is symmetric. -/
theorem SameDisk.symm {w w' : State P} (h : SameDisk w w') : SameDisk w' w := by
  refine ⟨⟨?_, ?_⟩, fun id => (h.bytes id).symm⟩
  · intro hnone
    cases hi : w.image with
    | none => rfl
    | some img =>
      obtain ⟨img', hi', -⟩ := h.image.2 img hi
      rw [hi'] at hnone
      cases hnone
  · intro img' hi'
    obtain ⟨img, hi, -⟩ := h.image.source hi'
    obtain ⟨img₁, hi₁, hlike⟩ := h.image.2 img hi
    rw [hi₁] at hi'
    obtain rfl := Option.some.inj hi'
    refine ⟨img, hi, ?_⟩
    unfold Image.Like at hlike ⊢
    rw [hlike]

/-- **An error reply does not change the disk**, and an `ok` of a request that restores or
    discards says that it is done. -/
theorem error_keeps_disk {events : List Event} {w : State P}
    (hsettles : ∀ event ∈ events, event.Settles) (h : run step State.init events = some w)
    {env : Env} {op : Op} (hsettled : op.Settles env) (hcalm : op.Calm env w) {ok : Bool}
    {w' : State P} (hanswer : w.answer env op = some (ok, w')) :
    (ok = false → SameDisk w w' ∧ (w'.image = none ↔ w.image = none) ∧
      ∀ content, Serves w' content ↔ Serves w content) ∧
    (ok = true → Effect op w w') := by
  obtain ⟨hok, hfailed⟩ := answer_spec (run_inv hsettles h) hsettled hanswer
  refine ⟨?_, fun htrue => (hok htrue).2⟩
  intro hfalse
  have hsame := (hfailed hfalse).disk hcalm
  refine ⟨hsame, ⟨hsame.symm.image.1, hsame.image.1⟩, ?_⟩
  intro content
  exact ⟨hsame.symm.serves, hsame.serves⟩

/-- An image of one chunk serves what its record opens to. -/
theorem serves_chunk {w : State P} {img : Image} {src : Source} {base content : Bytes}
    (hi : w.image = some img) (hget : w.sources.get img.source = some src)
    (hsize : 0 < img.size ∧ img.size ≤ CHUNK) (hbase : base.length = img.size)
    (hrecord : (slice src.bytes (recordOffset 0) (img.size + OVERHEAD)).length = img.size + OVERHEAD)
    (hopen : img.disk.openUnit P (unit 0).val (slice src.bytes (recordOffset 0) (img.size + OVERHEAD))
      = .ok base) :
    Serves w content ↔ img.content base = content := by
  have hchunk : chunkLen img.size 0 = img.size := by
    unfold chunkLen
    omega
  have hauthentic : img.Authentic P (stored fun _ => src.bytes) 0 base := by
    refine ⟨by omega, hbase.trans hchunk.symm, _, ?_, ?_, hopen⟩
    · rw [hrecord, hchunk]
    · show _ = slice _ _ _
      rw [hrecord]
  constructor
  · rintro ⟨img', src', base', hi', hget', hover, hcontent⟩
    obtain rfl := Option.some.inj (hi.symm.trans hi')
    obtain rfl := Option.some.inj (hget.symm.trans hget')
    have hsame := hover.authentic 0 base hauthentic
    rw [hchunk, Nat.zero_mul, slice_self hover.length_base] at hsame
    rw [hsame]
    exact hcontent
  · intro hcontent
    refine ⟨img, src, base, hi, hget, ⟨hbase, ?_⟩, hcontent⟩
    -- there is only chunk 0, and only one record for it
    rintro i b ⟨hlt, -, enc, henc, hstored, hopen'⟩
    obtain rfl : i = 0 := by
      by_contra hne
      have hone : CHUNK ≤ i * CHUNK := Nat.le_mul_of_pos_left CHUNK (by omega)
      omega
    rw [hchunk] at henc ⊢
    have henc' : enc = slice src.bytes (recordOffset 0) (img.size + OVERHEAD) := by
      rw [← henc]
      exact hstored
    rw [henc', hopen] at hopen'
    rw [Nat.zero_mul, slice_self hbase]
    exact (Except.ok.inj hopen').symm

/-- What the vault serves, when its record is that of the five bytes. -/
def State.served (w : State plain) : Option Bytes := do
  let img ← w.image
  let src ← w.sources.get img.source
  let record := slice src.bytes (recordOffset 0) (img.size + OVERHEAD)
  if img.size = 5 ∧ record.length = img.size + OVERHEAD ∧
      img.disk.openUnit plain (unit 0).val record = .ok demoBase
    then some (img.content demoBase) else none

/-- What the demo computes is the content that is served. -/
theorem served_serves {w : State plain} {bytes content : Bytes} (h : w.served = some bytes) :
    Serves w content ↔ bytes = content := by
  obtain ⟨img, hi, h⟩ := Option.bind_eq_some_iff.mp h
  obtain ⟨src, hget, h⟩ := Option.bind_eq_some_iff.mp h
  dsimp only at h
  split at h
  next hall =>
    obtain ⟨hsize, hrecord, hopen⟩ := hall
    obtain rfl := Option.some.inj h
    refine serves_chunk hi hget ?_ ?_ hrecord hopen
    · rw [hsize]
      exact ⟨by decide, by decide⟩
    · rw [hsize]
      rfl
  next => cases h

/-- What was served before a request, whether it was answered `ok`, and what is served after. -/
def demoAnswer (events : List Event) (env : Env) (op : Op) :
    Option (Option Bytes × Bool × Option Bytes) :=
  (run step State.init events).bind fun w =>
    (w.answer env op).map fun x => (w.served, x.1, State.served x.2)

/-- The Worker before and after the last request. -/
theorem demoAnswer_eq {events : List Event} {env : Env} {op : Op} {before after : Option Bytes}
    {ok : Bool} (h : demoAnswer events env op = some (before, ok, after)) :
    ∃ w w' : State plain, run step State.init events = some w ∧
      w.answer env op = some (ok, w') ∧ w.served = before ∧ w'.served = after := by
  obtain ⟨w, hrun, h⟩ := Option.bind_eq_some_iff.mp h
  obtain ⟨⟨ok', w'⟩, hanswer, h⟩ := Option.map_eq_some_iff.mp h
  obtain ⟨hbefore, h⟩ := Prod.mk.inj h
  obtain ⟨rfl, hafter⟩ := Prod.mk.inj h
  exact ⟨w, w', hrun, hanswer, hbefore, hafter⟩

def demoWritten : List Event := demoOpen demoEnv ++ [.request demoEnv (.write 0 [9])]

def demoPrepared : List Event := demoWritten ++ [.request demoEnv (.prepareState false false)]

/-- Nothing fails late in the run with a write. -/
theorem demoWritten_settles : ∀ event ∈ demoWritten, event.Settles := by
  intro event he
  rcases List.mem_append.mp he with he | he
  · exact demoOpen_settles event he
  · obtain rfl := List.mem_singleton.mp he
    exact demoEnv_settles _

/-- A read past the end is an error, and the disk is what it was. -/
theorem demoWritten_error_keeps : ∃ w w' : State plain,
    run step State.init demoWritten = some w ∧ w.answer demoEnv (.read 0 6) = some (false, w') ∧
      Serves w' [9, 20, 30, 40, 50] := by
  have hlook : demoAnswer demoWritten demoEnv (.read 0 6)
      = some (some [9, 20, 30, 40, 50], false, some [9, 20, 30, 40, 50]) := by decide +kernel
  obtain ⟨w, w', hrun, hanswer, hbefore, -⟩ := demoAnswer_eq hlook
  have hkeeps := (error_keeps_disk demoWritten_settles hrun (demoEnv_settles (.read 0 6))
    trivial hanswer).1 rfl
  exact ⟨w, w', hrun, hanswer, (hkeeps.2.2 _).mpr ((served_serves hbefore).mpr rfl)⟩

/-- The torrent does not answer. -/
def demoOffline : Env :=
  { demoEnv with setLoadPrefetch := .error ⟨"IO_ERROR", "Torrent unavailable"⟩ }

/-- **An error after the disk has changed.**  `discard` and `commitState` report that the
    publication does not prefetch, and the byte that was written is gone. -/
theorem prefetch_error_changes_disk :
    (demoAnswer demoWritten demoOffline .discard
        = some (some [9, 20, 30, 40, 50], false, some [10, 20, 30, 40, 50]) ∧
      demoAnswer demoPrepared demoOffline (.commitState 1)
        = some (some [9, 20, 30, 40, 50], false, some [10, 20, 30, 40, 50])) ∧
    ¬ ∀ (events : List Event) (w w' : State plain) (env : Env) (op : Op),
      run step State.init events = some w → w.answer env op = some (false, w') →
        ∀ content, Serves w' content ↔ Serves w content := by
  have hdiscard : demoAnswer demoWritten demoOffline .discard
      = some (some [9, 20, 30, 40, 50], false, some [10, 20, 30, 40, 50]) := by decide +kernel
  refine ⟨⟨hdiscard, by decide +kernel⟩, ?_⟩
  intro hclaim
  obtain ⟨w, w', hrun, hanswer, hbefore, hafter⟩ := demoAnswer_eq hdiscard
  have hserves := (hclaim _ w w' _ _ hrun hanswer _).mpr ((served_serves hbefore).mpr rfl)
  revert hserves
  rw [served_serves hafter]
  decide

end My98.Web.Worker
