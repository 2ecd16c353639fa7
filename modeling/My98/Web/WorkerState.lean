/-
  My98.Web.WorkerState — what holds between two requests of the disk Worker.

    • `Inv`   — the open image reads from the current source, the prepared file is that source,
      and without an image there is no current source;
    • `Stays` — what a failed request leaves: the disk, the sources and everything the guards of
      `execute` look at are as they were;
    • `wp_openFile`, `wp_createFrom`, `wp_save`, … — a request that opens, creates or saves a
      disk ends with the invariant, or it stays.

  `openRemote` is the exception: it fails AFTER the vault has the image when the poll behind
  `vault.open` or `startPrefetch` does, and `Env.Settles` says that neither does.
-/
import Mathlib.Algebra.Order.Ring.Nat
import Mathlib.Tactic.Common
import My98.Web.Worker

namespace My98.Web.Worker

open My98.Lib My98.Disk My98.Crypto

variable {P : Primitives} {α : Type}

/-! ## §1. Engines. -/

/-- A host that may hand out anything. -/
def anyHost : Host := fun _ _ _ => True

/-- Every host is within the widest promise. -/
theorem within_any (io : Io) : io.Within anyHost := fun _ _ _ _ _ _ _ => trivial

/-- An engine between two calls of the Worker. -/
structure Sound (e : Engine P) : Prop where
  wf : e.WF anyHost
  live : e.Live

/-- The image may have another cache; what is in progress may differ. -/
structure Alike (e e' : Engine P) : Prop where
  identity : e'.identity = e.identity
  revision : e'.revision = e.revision
  image : ∀ img, e.image = some img → ∃ img', e'.image = some img' ∧ Image.Like img img'
  absent : e.image = none → e'.image = none
  sound : Sound e → Sound e'

/-- An engine is like itself. -/
theorem Alike.refl (e : Engine P) : Alike e e where
  identity := rfl
  revision := rfl
  image := fun img hi => ⟨img, hi, Image.Like.refl img⟩
  absent := id
  sound := id

/-- Likeness of engines is transitive. -/
theorem Alike.trans {a b c : Engine P} (h : Alike a b) (h' : Alike b c) : Alike a c where
  identity := h'.identity.trans h.identity
  revision := h'.revision.trans h.revision
  image := by
    intro img hi
    obtain ⟨img', hi', hlike⟩ := h.image img hi
    obtain ⟨img'', hi'', hlike'⟩ := h'.image img' hi'
    exact ⟨img'', hi'', hlike.trans hlike'⟩
  absent := fun hi => h'.absent (h.absent hi)
  sound := fun hs => h'.sound (h.sound hs)

/-- An engine that kept its disk is like the one before. -/
theorem Alike.of_kept {e e' : Engine P} (hk : e.Kept anyHost e') : Alike e e' where
  identity := by rw [hk.same]
  revision := by rw [hk.same]
  image := by
    intro img hi
    obtain ⟨img', hi', hlike, -⟩ := hk.image img hi
    exact ⟨img', hi', hlike⟩
  absent := hk.absent
  sound := fun hs => ⟨hk.wf hs.wf, hk.live hs.live⟩

/-- So is one that was fed a stretch of its image. -/
theorem Alike.of_fed {e e' : Engine P} {img : Image} {fed fed' : Bytes} {index index' : Nat}
    (hi : e.image = some img) (hf : e.Fed anyHost img fed index e' fed' index') : Alike e e' := by
  have hsound : Sound e → Sound e' := fun hs => ⟨hf.wf hi hs.wf, hf.live hs.live⟩
  rcases hf with ⟨-, rfl, -⟩ | ⟨-, e₁, bytes, hk, -, -, rfl, -⟩
  · exact Alike.refl e'
  · have ha := Alike.of_kept hk
    exact ⟨ha.identity, ha.revision, ha.image, ha.absent, hsound⟩

/-- A call that stops leaves the image, and what is being built. -/
theorem Alike.of_stopped {e e' : Engine P} {c : Call} (h : e.Stopped anyHost c e') :
    Alike e e' ∧ e'.build = e.build := by
  cases h with
  | kept hk =>
    refine ⟨Alike.of_kept hk, ?_⟩
    rw [hk.same]
  | fed hi _ hf =>
    refine ⟨Alike.of_fed hi hf, ?_⟩
    rcases hf with ⟨-, rfl, -⟩ | ⟨-, e₁, bytes, hk, -, -, rfl, -⟩
    · rfl
    · show e₁.build = e.build
      rw [hk.same]

/-- A cancelled engine holds the same disk. -/
theorem Alike.cancelled (e : Engine P) : Alike e e.cancelled where
  identity := rfl
  revision := rfl
  image := fun img hi => ⟨img, hi, Image.Like.refl img⟩
  absent := id
  sound := by
    intro hs
    refine ⟨hs.wf.cancelled, hs.live.image, ?_⟩
    intro b hb
    cases hb

/-! ## §2. Sources. -/

/-- Two counters never make one source name. -/
theorem sourceName_injective {m n : Nat} (h : sourceName m = sourceName n) : m = n := by
  unfold sourceName at h
  have hlist := congrArg String.toList h
  rw [String.toList_append, String.toList_append] at hlist
  have hdigits := List.append_cancel_left hlist
  rw [Nat.repr_eq_ofList_toDigits, Nat.repr_eq_ofList_toDigits, String.toList_ofList,
    String.toList_ofList] at hdigits
  rw [← Nat.ofDigitChars_ten_toDigits (n := m), hdigits, Nat.ofDigitChars_ten_toDigits]

namespace Sources

variable {s : Sources} {id id' : String} {v : Source}

/-- A source that was added under a fresh name is found. -/
theorem get_append_self (h : ∀ e ∈ s, e.1 ≠ id) : get (s ++ [(id, v)]) id = some v := by
  have hnone : s.find? (fun e => e.1 = id) = none := by
    rw [List.find?_eq_none]
    intro e he
    simpa using h e he
  simp [get, List.find?_append, hnone]

/-- Deleting it again gives the sources before. -/
theorem delete_append_self (h : ∀ e ∈ s, e.1 ≠ id) : delete (s ++ [(id, v)]) id = s := by
  unfold delete
  rw [List.filter_append, List.filter_eq_self.mpr]
  · simp
  · intro e he
    simpa using h e he

/-- Deleting a source leaves the others. -/
theorem get_delete (h : id' ≠ id) : (s.delete id).get id' = s.get id' := by
  unfold get delete
  congr 1
  induction s with
  | nil => rfl
  | cons e s ih =>
    by_cases hid : e.1 = id
    · have hne : decide (e.1 = id') = false := by
        rw [hid]
        exact decide_eq_false h.symm
      have hdrop : decide (e.1 ≠ id) = false := by simpa using hid
      rw [List.filter_cons_of_neg (by simpa using hdrop), List.find?_cons, hne]
      exact ih
    · rw [List.filter_cons_of_pos (by simpa using hid), List.find?_cons, List.find?_cons, ih]

end Sources

/-! ## §3. The invariant. -/

/-- Every name that is in use was given out. -/
structure Named (w : State P) : Prop where
  sources : ∀ e ∈ w.sources, ∃ n, n ≤ w.sourceId ∧ e.1 = sourceName n
  current : ∀ id, w.current = some id → ∃ n, n ≤ w.sourceId ∧ id = sourceName n

/-- The next name is not in use. -/
theorem Named.fresh {w : State P} (h : Named w) :
    (∀ e ∈ w.sources, e.1 ≠ sourceName (w.sourceId + 1)) ∧
      w.current ≠ some (sourceName (w.sourceId + 1)) := by
  constructor
  · intro e he hname
    obtain ⟨n, hn, hid⟩ := h.sources e he
    have := sourceName_injective (hid.symm.trans hname)
    omega
  · intro hname
    obtain ⟨n, hn, hid⟩ := h.current _ hname
    have := sourceName_injective hid
    omega

/-- What a candidate needs. -/
structure Candidate.Ok (c : Candidate P) (w : State P) : Prop where
  sound : Sound c.vault
  idle : c.vault.build = none
  image : ∃ img, c.vault.image = some img ∧ c.source = some img.source
  named : ∀ id, c.source = some id → ∃ n, n ≤ w.sourceId ∧ id = sourceName n
  job : ∀ p, c.prefetchId = some p → c.source = w.current → hasJob w.remote p = true

/-- **The invariant of the Worker.** -/
structure Inv (w : State P) : Prop where
  sound : ∀ e, w.vault = some e → Sound e
  idle : ∀ e, w.vault = some e → e.build = none
  image : ∀ img, w.image = some img → w.current = some img.source ∧
    ∃ src, w.sources.get img.source = some src ∧ ∀ p, w.prepared = some p → p.blob = src.bytes
  closed : w.image = none → w.input = none
  shut : w.vault = none → w.current = none ∧ w.prepared = none
  named : Named w
  candidate : ∀ c, w.stateCandidate = some c → c.Ok w

/-- A closed Worker keeps the invariant. -/
theorem inv_closed (w : State P) : Inv w.closed where
  sound := by
    intro e he
    cases he
  idle := by
    intro e he
    cases he
  image := by
    intro img hi
    cases hi
  closed := fun _ => rfl
  shut := fun _ => ⟨rfl, rfl⟩
  named := by
    refine ⟨?_, ?_⟩
    · intro e he
      cases he
    · intro id hid
      cases hid
  candidate := by
    intro c hc
    cases hc

/-- So does the one at the start. -/
theorem inv_init : Inv (State.init : State P) := inv_closed State.init

/-- `w'` is `w` up to caches and what is in progress, with the sources `extra` added. -/
structure Near (extra : Sources) (w w' : State P) : Prop where
  vault : Option.Rel Alike w.vault w'.vault
  sources : w'.sources = w.sources ++ extra
  sourceId : w.sourceId ≤ w'.sourceId
  current : w'.current = w.current
  prepared : w'.prepared = w.prepared
  stateCandidate : w'.stateCandidate = w.stateCandidate
  identity : w'.identity = w.identity
  bootAnalysis : w'.bootAnalysis = w.bootAnalysis
  torrentIO : w'.torrentIO = w.torrentIO

/-- Nothing is being built. -/
def Idle (w : State P) : Prop := ∀ e, w.vault = some e → e.build = none

/-- **What a failed request leaves**: the disk, the sources and all that a guard looks at. -/
structure Stays (w w' : State P) : Prop where
  near : Near [] w w'
  idle : Idle w'

/-- Every vault is like itself. -/
theorem rel_refl (v : Option (Engine P)) : Option.Rel Alike v v := by
  cases v with
  | none => exact .none
  | some e => exact .some (Alike.refl e)

/-- A Worker is near itself, with no source added. -/
theorem Near.refl (w : State P) : Near [] w w :=
  ⟨rel_refl _, (List.append_nil _).symm, le_refl _, rfl, rfl, rfl, rfl, rfl, rfl⟩

/-- A Worker that did nothing stays where it is. -/
theorem Stays.refl {w : State P} (h : Inv w) : Stays w w := ⟨Near.refl w, h.idle⟩

/-- The open image is the same up to its cache. -/
def SameImage (w w' : State P) : Prop :=
  (w.image = none → w'.image = none) ∧
    ∀ img, w.image = some img → ∃ img', w'.image = some img' ∧ Image.Like img img'

/-- Alike engines hold the same image. -/
theorem SameImage.of_rel {w w' : State P} (h : Option.Rel Alike w.vault w'.vault) :
    SameImage w w' := by
  unfold SameImage State.image
  cases hv : w.vault with
  | none =>
    rw [hv] at h
    cases hv' : w'.vault with
    | none =>
      refine ⟨fun _ => rfl, ?_⟩
      intro img hi
      cases hi
    | some e' =>
      rw [hv'] at h
      cases h
  | some e =>
    rw [hv] at h
    cases hv' : w'.vault with
    | none =>
      rw [hv'] at h
      cases h
    | some e' =>
      rw [hv'] at h
      cases h with
      | some ha => exact ⟨ha.absent, ha.image⟩

/-- The same image reads from the same source. -/
theorem SameImage.source {w w' : State P} (h : SameImage w w') {img' : Image}
    (hi : w'.image = some img') : ∃ img, w.image = some img ∧ img'.source = img.source := by
  cases hw : w.image with
  | none =>
    rw [h.1 hw] at hi
    cases hi
  | some img =>
    obtain ⟨img₁, hi₁, hlike⟩ := h.2 img hw
    rw [hi₁] at hi
    obtain rfl := Option.some.inj hi
    exact ⟨img, rfl, by rw [hlike]⟩

/-- What is like an engine is an engine like it. -/
theorem rel_some {v : Option (Engine P)} {e' : Engine P} (h : Option.Rel Alike v (some e')) :
    ∃ e, v = some e ∧ Alike e e' := by
  cases h with
  | some ha => exact ⟨_, rfl, ha⟩

/-- What is like no engine is none. -/
theorem rel_none {v : Option (Engine P)} (h : Option.Rel Alike v none) : v = none := by
  cases h
  rfl

/-- Soundness passes along likeness. -/
theorem rel_sound {v v' : Option (Engine P)} (h : Option.Rel Alike v v')
    (hs : ∀ e, v = some e → Sound e) : ∀ e, v' = some e → Sound e := by
  intro e' he'
  subst he'
  cases h with
  | some ha => exact ha.sound (hs _ rfl)

/-- A failed request keeps the invariant. -/
theorem Stays.inv {w w' : State P} (h : Stays w w') (hw : Inv w) : Inv w' := by
  have hn := h.near
  have hsources : w'.sources = w.sources := hn.sources.trans (List.append_nil _)
  have himg := SameImage.of_rel hn.vault
  have hinput : w'.input = w.input := by
    unfold State.input
    rw [hn.current, hsources]
  have hremote : w'.remote = w.remote := by
    unfold State.remote
    rw [hinput]
  refine ⟨rel_sound hn.vault hw.sound, h.idle, ?_, ?_, ?_, ?_, ?_⟩
  · intro img' hi'
    obtain ⟨img, hi, hsrc⟩ := himg.source hi'
    rw [hn.current, hsources, hn.prepared, hsrc]
    exact hw.image img hi
  · intro hnone
    rw [hinput]
    cases hi : w.image with
    | none => exact hw.closed hi
    | some img =>
      obtain ⟨img', hi', -⟩ := himg.2 img hi
      rw [hi'] at hnone
      cases hnone
  · intro hnone
    have hrel := hn.vault
    rw [hnone] at hrel
    rw [hn.current, hn.prepared]
    exact hw.shut (rel_none hrel)
  · have hle := hn.sourceId
    refine ⟨?_, ?_⟩
    · intro e he
      rw [hsources] at he
      obtain ⟨n, hle', hid⟩ := hw.named.sources e he
      exact ⟨n, by omega, hid⟩
    · intro id hid
      rw [hn.current] at hid
      obtain ⟨n, hle', hid⟩ := hw.named.current id hid
      exact ⟨n, by omega, hid⟩
  · intro c hc
    rw [hn.stateCandidate] at hc
    have hle := hn.sourceId
    have hok := hw.candidate c hc
    refine ⟨hok.sound, hok.idle, hok.image, ?_, ?_⟩
    · intro id hid
      obtain ⟨n, hle', hid⟩ := hok.named id hid
      exact ⟨n, by omega, hid⟩
    · intro p hp hcur
      rw [hn.current] at hcur
      rw [hremote]
      exact hok.job p hp hcur

/-! ## §4. Rules. -/

/-- Putting back the engine that is there changes nothing. -/
theorem State.put_self {w : State P} {e : Engine P} (h : w.vault = some e) : w.put e = w := by
  unfold State.put
  rw [← h]

/-- A request that ends with an error ends in a state with `R`. -/
def Ends (R : State P → Prop) (st : Stop) (s : State P × Nat) : Prop := st ≠ .diverged → R s.1

section Rules

variable {Q : α → State P × Nat → Prop} {E : Stop → State P × Nat → Prop} {R : State P → Prop}
  {s : State P × Nat} {env : Env}

@[simp] theorem wp_self {Q : State P → State P × Nat → Prop} : wp self Q E s ↔ Q s.1 s := Iff.rfl

@[simp] theorem wp_update {Q : Unit → State P × Nat → Prop} (f : State P → State P) :
    wp (update f) Q E s ↔ Q () (f s.1, s.2) := Iff.rfl

@[simp] theorem wp_register {Q : String → State P × Nat → Prop} (v : Source) :
    wp (register v) Q E s ↔ Q (sourceName (s.1.sourceId + 1))
      ({ s.1 with
          sourceId := s.1.sourceId + 1
          sources := s.1.sources ++ [(sourceName (s.1.sourceId + 1), v)] }, s.2) := Iff.rfl

@[simp] theorem wp_remove {Q : Unit → State P × Nat → Prop} (id : String) :
    wp (remove id) Q E s ↔ Q () ({ s.1 with sources := s.1.sources.delete id }, s.2) := Iff.rfl

/-- `removeOther` deletes a source that is not the current one. -/
theorem wp_removeOther {Q : Unit → State P × Nat → Prop} {id : String} (hcur : s.1.current ≠ some id)
    (hok : Q () ({ s.1 with sources := s.1.sources.delete id }, s.2)) :
    wp (removeOther id) Q E s := by
  unfold removeOther
  rw [wp_bind, wp_self, if_pos hcur]
  exact hok

/-- `removePrevious` deletes the source of the disk before, if there was one. -/
theorem wp_removePrevious {Q : Unit → State P × Nat → Prop} {previous : Option String}
    (hsome : ∀ id, previous = some id → Q () ({ s.1 with sources := s.1.sources.delete id }, s.2))
    (hnone : previous = none → Q () s) : wp (removePrevious previous) Q E s := by
  cases previous with
  | none => exact hnone rfl
  | some id => exact hsome id rfl

/-- A check passes and counts, or ends the job where it stands. -/
theorem wp_poll {Q : Unit → State P × Nat → Prop} (hok : Q () (s.1, s.2 + 1))
    (hstop : R s.1) : wp (check env) Q (Ends R) s := by
  unfold check
  rw [wp_bind, wp_tick]
  exact wp_require (fun _ => hok) (fun _ _ => hstop)

/-- A handler runs from wherever the body stopped, except where the Worker diverged. -/
theorem wp_catching {c : Async (State P) α} {h : Stop → Async (State P) α}
    (hc : wp c Q (fun st s' => st ≠ .diverged → wp (h st) Q (Ends R) s') s) :
    wp (catching c h) Q (Ends R) s := by
  unfold catching
  rw [wp_tryCatch]
  refine wp_mono hc (fun _ _ h => h) ?_
  intro st s' hst
  by_cases hd : st = .diverged
  · rw [if_pos hd, wp_throw]
    intro hne
    exact absurd hd hne
  · rw [if_neg hd]
    exact hst hd

/-- A handler that cleans up and throws again. -/
theorem wp_catching_throw {c : Async (State P) α} {f : Async (State P) Unit}
    (hc : wp c Q (Ends fun w => ∀ t, wp f (fun _ s' => R s'.1) (Ends R) (w, t)) s) :
    wp (catching c fun st => do f; throw st) Q (Ends R) s := by
  refine wp_catching (wp_mono hc (fun _ _ h => h) ?_)
  intro st s' hst hne
  rw [wp_bind]
  exact wp_mono (hst hne s'.2) (fun _ _ h _ => h) (fun _ _ h => h)

/-- A call of the engine is run on the vault, and its engine put back however the call ends. -/
theorem wp_onVault {c : Io → Async (Engine P) α} {e : Engine P} (hv : s.1.vault = some e)
    (hrun : wp (c (env.io s.1.sources)) (fun a t => Q a (s.1.put t.1, t.2))
      (fun st t => E st (s.1.put t.1, t.2)) (e, s.2)) :
    wp (onVault env c) Q E s := by
  unfold onVault
  rw [wp_bind, wp_self, hv]
  dsimp only
  rw [wp_zoom]
  exact hrun

/-- A call of the vault returns as the engine does, or stops with the image it found. -/
theorem wp_call {c : Io → Async (Engine P) α} {call : Call} {value : α → Value} {e : Engine P}
    (hmeets : ∀ io, io.Within anyHost → Engine.Meets anyHost (e, s.2) call (c io) value)
    (hv : s.1.vault = some e)
    (hok : ∀ a e' t, e.Done anyHost call (value a) e' → Q a (s.1.put e', t))
    (hstop : ∀ st e' t, e.Stopped anyHost call e' → E st (s.1.put e', t)) :
    wp (onVault env c) Q E s := by
  refine wp_onVault hv ?_
  refine wp_mono (hmeets _ (within_any _)) ?_ ?_
  · intro a t hd
    exact hok a t.1 t.2 hd
  · intro st t hst
    exact hstop st t.1 t.2 hst.2

/-- A live image can be described. -/
theorem wp_description {e : Engine P} {Q : Description × Option String → State P × Nat → Prop}
    (hv : s.1.vault = some e) (hs : Sound e)
    (hok : ∀ d img, e.image = some img → d.revision = e.revision → d.size = img.size →
      Q (d, s.1.remote.map (·.infoHash)) s)
    (hstop : e.image = none → R s.1) : wp (describe env) Q (Ends R) s := by
  have hsame : (s.1.put e, s.2) = s := by rw [State.put_self hv]
  unfold describe
  rw [wp_bind]
  refine wp_onVault hv ?_
  unfold Engine.describe
  rw [wp_bind, Engine.wp_self]
  cases hi : e.image with
  | none =>
    intro _
    rw [hsame]
    exact hstop hi
  | some img =>
    have hcheck : img.disk.check = .ok () := by
      unfold Crypto.Disk.check
      rw [if_pos (hs.live.image img hi)]
    dsimp only
    rw [wp_bind, hcheck]
    refine (wp_pure _).mpr ((wp_pure _).mpr ?_)
    rw [hsame]
    exact hok _ img hi rfl rfl

end Rules

/-! ## §5. Building. -/

/-- A like engine may be put back. -/
theorem Near.put {extra : Sources} {w₀ w : State P} {e e' : Engine P} (h : Near extra w₀ w)
    (hv : w.vault = some e) (ha : Alike e e') : Near extra w₀ (w.put e') := by
  refine { h with vault := ?_ }
  have hrel := h.vault
  rw [hv] at hrel
  obtain ⟨e₀, hv₀, ha₀⟩ := rel_some hrel
  rw [hv₀]
  exact .some (ha₀.trans ha)

/-- Putting an engine touches no source name. -/
theorem Named.put {w : State P} (h : Named w) (e : Engine P) : Named (w.put e) :=
  ⟨h.sources, h.current⟩

/-- A build is under way. -/
structure Mid (extra : Sources) (w₀ w : State P) : Prop where
  near : Near extra w₀ w
  named : Named w
  building : ∃ e, w.vault = some e ∧ Sound e ∧ e.build.isSome = true

section Build

variable {extra : Sources} {w₀ : State P} {env : Env}

/-- A step of a build leaves the disk alike, and the build under way. -/
theorem Alike.of_next {e e' : Engine P} {r : Option Bytes}
    (h : e.Done anyHost .next (.maybe r) e') :
    Alike e e' ∧ (e.build.isSome = true → e'.build.isSome = true) := by
  have hsound : Sound e → Sound e' := fun hs => ⟨h.wf hs.wf, h.live hs.live⟩
  cases h with
  | nextEnd => exact ⟨Alike.refl e, id⟩
  | nextChunk hb hr hlt hk hsrc hseal =>
    have ha := Alike.of_kept hk
    exact ⟨⟨ha.identity, ha.revision, ha.image, ha.absent, hsound⟩, fun _ => rfl⟩

/-- The rounds of a build change nothing but the build. -/
theorem wp_nextLoop (n : Nat) : ∀ (parts : Bytes) (s : State P × Nat), Mid extra w₀ s.1 →
    wp (nextLoop env n parts) (fun _ s' => Mid extra w₀ s'.1) (Ends (Mid extra w₀)) s := by
  induction n with
  | zero =>
    intro parts s _ hne
    exact absurd rfl hne
  | succ n ih =>
    intro parts s hmid
    obtain ⟨e, hv, hs, hb⟩ := hmid.building
    unfold nextLoop
    rw [wp_bind]
    refine wp_poll ?_ hmid
    rw [wp_bind]
    refine wp_call (fun io hio => Engine.meets_next hs.wf hio) hv ?_ ?_
    · intro r e' t hd
      obtain ⟨ha, hb'⟩ := Alike.of_next hd
      have hmid' : Mid extra w₀ (s.1.put e') :=
        ⟨hmid.near.put hv ha, hmid.named.put e', e', rfl, ha.sound hs, hb' hb⟩
      cases r with
      | none => exact hmid'
      | some bytes => exact ih (parts ++ bytes) _ hmid'
    · intro st e' t hstop _
      obtain ⟨ha, hbuild⟩ := Alike.of_stopped hstop
      refine ⟨hmid.near.put hv ha, hmid.named.put e', e', rfl, ha.sound hs, ?_⟩
      rw [hbuild]
      exact hb

/-- What an accepted build leaves: a new source is current. -/
structure Accepted (extra : Sources) (w : State P) : Prop where
  inv : Inv w
  current : ∃ id, w.current = some id ∧ ∀ x ∈ extra, x.1 ≠ id

/-- The state once the new file is current. -/
def adopted (w : State P) (e : Engine P) (id : String) (blob : Bytes) : State P :=
  { w with
    vault := some e
    current := some id, restoredOrigin := none, freshRestore := false
    nextDownload := w.nextDownload + 1, prepared := some ⟨w.nextDownload + 1, blob⟩ }

/-- A vault whose image reads from the current source. -/
theorem Inv.opened {w : State P} {e : Engine P} {img : Image} {src : Source} (hv : w.vault = some e)
    (hs : Sound e) (hb : e.build = none) (hi : e.image = some img)
    (hcur : w.current = some img.source) (hget : w.sources.get img.source = some src)
    (hprep : ∀ p, w.prepared = some p → p.blob = src.bytes) (hnamed : Named w)
    (hcand : ∀ c, w.stateCandidate = some c → c.Ok w) : Inv w := by
  have himage : w.image = some img := by
    unfold State.image
    rw [hv]
    exact hi
  refine ⟨?_, ?_, ?_, ?_, ?_, hnamed, hcand⟩
  · intro e' he'
    rw [hv] at he'
    rwa [← Option.some.inj he']
  · intro e' he'
    rw [hv] at he'
    rwa [← Option.some.inj he']
  · intro img' hi'
    rw [himage] at hi'
    obtain rfl := Option.some.inj hi'
    exact ⟨hcur, src, hget, hprep⟩
  · intro hnone
    rw [himage] at hnone
    cases hnone
  · intro hnone
    rw [hv] at hnone
    cases hnone

/-- A candidate of an earlier state does not read from a new source. -/
theorem Candidate.Ok.forget {c : Candidate P} {w w' : State P} (h : c.Ok w)
    (hid : w.sourceId ≤ w'.sourceId) {n : Nat} (hn : w.sourceId < n)
    (hcur : w'.current = some (sourceName n)) : c.Ok w' := by
  refine ⟨h.sound, h.idle, h.image, ?_, ?_⟩
  · intro id hid'
    obtain ⟨m, hle, hm⟩ := h.named id hid'
    exact ⟨m, by omega, hm⟩
  · intro p _ hsrc
    rw [hcur] at hsrc
    obtain ⟨m, hle, hm⟩ := h.named _ hsrc
    have := sourceName_injective hm
    omega

/-- `w` with a source registered. -/
def State.withSource (w : State P) (v : Source) : State P :=
  { w with
    sourceId := w.sourceId + 1
    sources := w.sources ++ [(sourceName (w.sourceId + 1), v)] }

/-- Registering a source adds exactly that source. -/
theorem Near.withSource (w : State P) (v : Source) :
    Near [(sourceName (w.sourceId + 1), v)] w (w.withSource v) :=
  ⟨rel_refl _, rfl, Nat.le_succ _, rfl, rfl, rfl, rfl, rfl, rfl⟩

/-- Its name is that of the counter. -/
theorem Named.withSource {w : State P} (h : Named w) (v : Source) : Named (w.withSource v) := by
  refine ⟨?_, ?_⟩
  · intro x hx
    rcases List.mem_append.mp hx with hx | hx
    · obtain ⟨n, hn, hname⟩ := h.sources x hx
      exact ⟨n, Nat.le_succ_of_le hn, hname⟩
    · obtain rfl := List.mem_singleton.mp hx
      exact ⟨_, le_refl _, rfl⟩
  · intro id hid
    obtain ⟨n, hn, hname⟩ := h.current id hid
    exact ⟨n, Nat.le_succ_of_le hn, hname⟩

/-- A new source has become the current one. -/
theorem Inv.adopt {w w' : State P} {v : Source} {e' : Engine P} {img : Image} (hnamed : Named w)
    (hv : w'.vault = some e') (hs : Sound e') (hb : e'.build = none) (hi : e'.image = some img)
    (hsrc : img.source = sourceName (w.sourceId + 1))
    (hcur : w'.current = some (sourceName (w.sourceId + 1)))
    (hget : w'.sources.get (sourceName (w.sourceId + 1)) = some v)
    (hsub : ∀ x ∈ w'.sources, x ∈ (w.withSource v).sources) (hid : w'.sourceId = w.sourceId + 1)
    (hprep : ∀ p, w'.prepared = some p → p.blob = v.bytes)
    (hcand : ∀ c, w'.stateCandidate = some c → ∃ w₀, c.Ok w₀ ∧ w₀.sourceId ≤ w.sourceId) :
    Inv w' := by
  refine Inv.opened hv hs hb hi ?_ ?_ hprep ⟨?_, ?_⟩ ?_
  · rw [hsrc]
    exact hcur
  · rw [hsrc]
    exact hget
  · intro x hx
    obtain ⟨n, hn, hname⟩ := (hnamed.withSource v).sources x (hsub x hx)
    exact ⟨n, by rw [hid]; exact hn, hname⟩
  · intro id hid'
    rw [hcur] at hid'
    exact ⟨_, hid.symm.le, (Option.some.inj hid').symm⟩
  · intro c hc
    obtain ⟨w₀, hok, hle⟩ := hcand c hc
    exact hok.forget (by omega) (Nat.lt_succ_of_le hle) hcur

/-- The new file becomes current and the previous source goes. -/
theorem wp_acceptBlob (hw₀ : Inv w₀) (blob : Bytes) {s : State P × Nat} (hmid : Mid extra w₀ s.1) :
    wp (acceptBlob env blob) (fun _ s' => Accepted extra s'.1) (Ends (Mid extra w₀)) s := by
  obtain ⟨e, hv, hs, hb⟩ := hmid.building
  obtain ⟨hfresh, hcur⟩ := hmid.named.fresh
  have hget : (s.1.withSource ⟨blob, .blob⟩).sources.get (sourceName (s.1.sourceId + 1)) =
      some ⟨blob, .blob⟩ := Sources.get_append_self hfresh
  have hdelete : (s.1.withSource ⟨blob, .blob⟩).sources.delete (sourceName (s.1.sourceId + 1)) =
      s.1.sources := Sources.delete_append_self hfresh
  unfold acceptBlob source
  rw [wp_bind, wp_register]
  refine wp_catching_throw ?_
  rw [wp_bind]
  refine wp_call (s := (s.1.withSource ⟨blob, .blob⟩, s.2)) (e := e)
    (fun io _ => Engine.meets_accept hs.wf _ _) hv ?_ ?_
  · intro _ e' t hd
    have hs' : Sound e' := ⟨hd.wf hs.wf, hd.live hs.live⟩
    obtain ⟨img, hi, hsrc, hb'⟩ : ∃ img, e'.image = some img ∧
        img.source = sourceName (s.1.sourceId + 1) ∧ e'.build = none := by
      cases hd with
      | accept => exact ⟨_, rfl, rfl, rfl⟩
    -- whichever sources are left, the new one is current and is what was prepared
    have hdone : ∀ sources : Sources,
        sources.get (sourceName (s.1.sourceId + 1)) = some ⟨blob, .blob⟩ →
        (∀ x ∈ sources, x ∈ (s.1.withSource ⟨blob, .blob⟩).sources) →
        Accepted extra { adopted (s.1.withSource ⟨blob, .blob⟩) e' (sourceName (s.1.sourceId + 1)) blob
          with sources } := by
      intro sources hnew hsub
      refine ⟨Inv.adopt (w := s.1) hmid.named rfl hs' hb' hi hsrc rfl hnew hsub rfl ?_ ?_, _, rfl, ?_⟩
      · intro p hp
        obtain rfl := Option.some.inj hp
        rfl
      · intro c hc
        have hc : s.1.stateCandidate = some c := hc
        rw [hmid.near.stateCandidate] at hc
        exact ⟨w₀, hw₀.candidate c hc, hmid.near.sourceId⟩
      · intro x hx
        refine hfresh x ?_
        rw [hmid.near.sources]
        exact List.mem_append_right _ hx
    have himage : e'.image ≠ none := by
      rw [hi]
      exact Option.some_ne_none img
    rw [wp_bind, wp_self, wp_bind, wp_update, wp_bind]
    refine wp_removePrevious ?_ ?_
    · intro previous hprevious
      have hne : sourceName (s.1.sourceId + 1) ≠ previous := by
        rintro rfl
        exact hcur hprevious
      rw [wp_bind]
      refine wp_description (e := e') rfl hs' ?_ (fun hnone => absurd hnone himage)
      intro d img' _ _ _
      refine hdone _ ((Sources.get_delete hne).trans hget) ?_
      intro x hx
      exact List.mem_of_mem_filter hx
    · intro _
      rw [wp_bind]
      refine wp_description (e := e') rfl hs' ?_ (fun hnone => absurd hnone himage)
      intro d img' _ _ _
      exact hdone _ hget fun x hx => hx
  · intro st e' t hstop _ t'
    obtain ⟨ha, hbuild⟩ := Alike.of_stopped hstop
    refine wp_removeOther hcur ?_
    have hnear := hmid.near.put hv ha
    refine ⟨{ hnear with sources := ?_, sourceId := le_trans hnear.sourceId (Nat.le_succ _) },
      ⟨?_, (hmid.named.withSource ⟨blob, .blob⟩).current⟩, e', rfl, ha.sound hs, ?_⟩
    · exact hdelete.trans hmid.near.sources
    · intro x hx
      exact (hmid.named.withSource ⟨blob, .blob⟩).sources x (List.mem_of_mem_filter hx)
    · rw [hbuild]
      exact hb

/-- The header of a build can be read. -/
theorem wp_header {e : Engine P} {b : Build} {Q : Bytes → Engine P × Nat → Prop}
    {E : Stop → Engine P × Nat → Prop} {t : Nat} (hid : e.identity.isSome = true)
    (hb : e.build = some b) (hok : Q b.header (e, t)) : wp Engine.header Q E (e, t) := by
  obtain ⟨id, hid⟩ := Option.isSome_iff_exists.mp hid
  unfold Engine.header Engine.owner
  rw [wp_bind, wp_bind, Engine.wp_self, hid]
  dsimp only
  rw [wp_pure, wp_bind, Engine.wp_self, hb]
  exact hok

/-- A build is accepted, or nothing is left of it. -/
theorem wp_build (hw₀ : Inv w₀) {s : State P × Nat} (hmid : Mid extra w₀ s.1) :
    wp (build env) (fun _ s' => Accepted extra s'.1)
      (Ends fun w => Near extra w₀ w ∧ Idle w ∧ Named w) s := by
  obtain ⟨e, hv, hs, hb⟩ := hmid.building
  obtain ⟨b, hbuild⟩ := Option.isSome_iff_exists.mp hb
  unfold build
  rw [wp_bind]
  refine wp_onVault hv (wp_header (hs.wf.build b hbuild).1 hbuild ?_)
  rw [State.put_self hv]
  refine wp_catching_throw ?_
  have hcancel : ∀ w : State P, Mid extra w₀ w → ∀ t, wp (onVault env fun _ => Engine.cancel)
      (fun _ s' => Near extra w₀ s'.1 ∧ Idle s'.1 ∧ Named s'.1)
      (Ends fun w => Near extra w₀ w ∧ Idle w ∧ Named w) (w, t) := by
    intro w hmid t
    obtain ⟨e, hv, hs, -⟩ := hmid.building
    refine wp_onVault hv ?_
    refine ⟨hmid.near.put hv (Alike.cancelled e), ?_, hmid.named.put _⟩
    intro e' he'
    obtain rfl := Option.some.inj he'
    rfl
  rw [wp_bind]
  refine wp_mono (wp_nextLoop env.rounds [] s hmid) ?_ ?_
  · intro body s' hmid'
    rw [wp_bind]
    refine wp_poll ?_ (hcancel _ hmid')
    rw [wp_bind]
    refine wp_poll ?_ (hcancel _ hmid')
    refine wp_mono (wp_acceptBlob hw₀ _ hmid') (fun _ _ h => h) ?_
    intro st s'' h hne
    exact hcancel _ (h hne)
  · intro st s' h hne
    exact hcancel _ (h hne)

end Build

/-! ## §6. Opening, creating and saving. -/

/-- Deleting the added source again leaves the Worker near, with none added. -/
theorem Near.remove {w₀ w : State P} {id : String} {v : Source} (h : Near [(id, v)] w₀ w)
    (hfresh : ∀ x ∈ w₀.sources, x.1 ≠ id) :
    Near [] w₀ { w with sources := w.sources.delete id } := by
  refine { h with sources := ?_ }
  show w.sources.delete id = w₀.sources ++ []
  rw [h.sources, Sources.delete_append_self hfresh, List.append_nil]

/-- A source that is not the current one can go. -/
theorem Inv.remove {w : State P} {id current : String} (h : Inv w) (hcur : w.current = some current)
    (hne : current ≠ id) : Inv { w with sources := w.sources.delete id } := by
  have hget : (w.sources.delete id).get current = w.sources.get current := Sources.get_delete hne
  have hinput : State.input { w with sources := w.sources.delete id } = w.input := by
    unfold State.input
    rw [hcur]
    exact hget
  have hremote : State.remote { w with sources := w.sources.delete id } = w.remote := by
    unfold State.remote
    rw [hinput]
  refine ⟨h.sound, h.idle, ?_, ?_, h.shut, ⟨?_, h.named.current⟩, ?_⟩
  · intro img hi
    obtain ⟨hsrc, src, hsome, hprep⟩ := h.image img hi
    refine ⟨hsrc, src, ?_, hprep⟩
    rw [hcur] at hsrc
    rw [← Option.some.inj hsrc] at hsome ⊢
    exact hget.trans hsome
  · intro hnone
    rw [hinput]
    exact h.closed hnone
  · intro x hx
    exact h.named.sources x (List.mem_of_mem_filter hx)
  · intro c hc
    have hok := h.candidate c hc
    refine ⟨hok.sound, hok.idle, hok.image, hok.named, ?_⟩
    intro p hp hsrc
    rw [hremote]
    exact hok.job p hp hsrc

section Open

variable {Q : α → State P × Nat → Prop} {R : State P → Prop} {s : State P × Nat} {env : Env}
  {e : Engine P}

/-- The last block runs after the body, whether that returned or stopped. -/
theorem wp_finally {c : Async (State P) α} {f : Async (State P) Unit}
    (hc : wp c (fun a s' => wp f (fun _ s'' => Q a s'') (Ends R) s')
      (Ends fun w => ∀ t, wp f (fun _ s' => R s'.1) (Ends R) (w, t)) s) :
    wp (finally' c f) Q (Ends R) s := by
  unfold finally'
  rw [wp_bind]
  refine wp_catching_throw (wp_mono hc ?_ (fun _ _ h => h))
  intro a s' h
  rw [wp_bind]
  exact h

/-- A source that was registered for nothing is removed again. -/
theorem Stays.withdrawn {w w' : State P} {v : Source} (hw : Inv w)
    (hn : Near [(sourceName (w.sourceId + 1), v)] w w') (hidle : Idle w') :
    Stays w { w' with sources := w'.sources.delete (sourceName (w.sourceId + 1)) } :=
  ⟨hn.remove hw.named.fresh.1, hidle⟩

/-- An engine without a build leaves the Worker idle. -/
theorem Idle.put {w : State P} {e' : Engine P} (h : e'.build = none) : Idle (w.put e') := by
  intro e he
  obtain rfl := Option.some.inj he
  exact h

/-- `createFrom` ends in a Worker with the invariant, or stays. -/
theorem wp_createFrom (hw : Inv s.1) (hv : s.1.vault = some e) (raw : Source) :
    wp (createFrom env raw) (fun _ s' => Inv s'.1) (Ends (Stays s.1)) s := by
  have hs := hw.sound e hv
  have hb := hw.idle e hv
  unfold createFrom
  rw [wp_bind, wp_register]
  refine wp_finally ?_
  rw [wp_bind]
  refine wp_call (s := (s.1.withSource raw, s.2)) (e := e)
    (fun io _ => Engine.meets_beginCreate hs.wf _ _) hv ?_ ?_
  · intro _ e' t hd
    have hsound : Sound e → Sound e' := fun hs => ⟨hd.wf hs.wf, hd.live hs.live⟩
    have hbegun : Alike e e' ∧ e'.build.isSome = true := by
      cases hd with
      | beginCreate hi hbegun =>
        obtain ⟨id, disk, salt, header, -, -, -, -, -, rfl⟩ := hbegun
        exact ⟨⟨rfl, rfl, fun img hi => ⟨img, hi, Image.Like.refl img⟩, fun h => h, hsound⟩, rfl⟩
    have hmid : Mid [(sourceName (s.1.sourceId + 1), raw)] s.1 ((s.1.withSource raw).put e') :=
      ⟨(Near.withSource s.1 raw).put hv hbegun.1, (hw.named.withSource raw).put e', e', rfl,
        hsound hs, hbegun.2⟩
    refine wp_mono (wp_build (s := ((s.1.withSource raw).put e', t)) hw hmid) ?_ ?_
    · intro _ s' hacc
      obtain ⟨id, hid, hother⟩ := hacc.current
      exact hacc.inv.remove hid (hother _ List.mem_cons_self).symm
    · intro st s' h hne t'
      obtain ⟨hnear, hidle, -⟩ := h hne
      exact Stays.withdrawn hw hnear hidle
  · intro st e' t hstop _ t'
    obtain ⟨ha, hbuild⟩ := Alike.of_stopped hstop
    exact Stays.withdrawn hw ((Near.withSource s.1 raw).put hv ha) (Idle.put (hbuild.trans hb))

/-- Once the vault has opened the new source, that source becomes current. -/
theorem wp_makeCurrent {Q : Unit → State P × Nat → Prop} {E : Stop → State P × Nat → Prop}
    {v : Source} {e' : Engine P} {img : Image} {t : Nat} (hw : Inv s.1) (hs : Sound e')
    (hb : e'.build = none) (hi : e'.image = some img)
    (hsrc : img.source = sourceName (s.1.sourceId + 1))
    (hok : ∀ w' : State P, Inv w' → w'.vault = some e' → Q () (w', t)) :
    wp (makeCurrent (sourceName (s.1.sourceId + 1))) Q E ((s.1.withSource v).put e', t) := by
  obtain ⟨hfresh, hcur⟩ := hw.named.fresh
  have hget : (s.1.withSource v).sources.get (sourceName (s.1.sourceId + 1)) = some v :=
    Sources.get_append_self hfresh
  have hprep : ∀ p : Prepared, (none : Option Prepared) = some p → p.blob = v.bytes := by
    intro p hp
    cases hp
  have hcand : ∀ c, s.1.stateCandidate = some c → ∃ w₀, c.Ok w₀ ∧ w₀.sourceId ≤ s.1.sourceId :=
    fun c hc => ⟨s.1, hw.candidate c hc, le_refl _⟩
  unfold makeCurrent
  rw [wp_bind, wp_self, wp_bind, wp_update]
  refine wp_removePrevious ?_ ?_
  · intro previous hprevious
    have hne : sourceName (s.1.sourceId + 1) ≠ previous := by
      rintro rfl
      exact hcur hprevious
    refine hok _ (Inv.adopt hw.named rfl hs hb hi hsrc rfl ((Sources.get_delete hne).trans hget) ?_
      rfl hprep hcand) rfl
    intro x hx
    exact List.mem_of_mem_filter hx
  · intro _
    exact hok _ (Inv.adopt hw.named rfl hs hb hi hsrc rfl hget (fun x hx => hx) rfl hprep hcand) rfl

/-- What `vault.open` leaves when it returns. -/
theorem opened_of_done {source : String} {total : Nat} {e' : Engine P} (hs : Sound e)
    (h : e.Done anyHost (.openDisk source total) .unit e') :
    Sound e' ∧ e'.build = none ∧ ∃ img, e'.image = some img ∧ img.source = source := by
  refine ⟨⟨h.wf hs.wf, h.live hs.live⟩, ?_⟩
  cases h with
  | openDisk hid hi hb => exact ⟨hb, _, rfl, rfl⟩

/-- The description is answered, or there is no image. -/
theorem wp_described {Q : Reply → State P × Nat → Prop} (hv : s.1.vault = some e) (hs : Sound e)
    (hok : ∀ r, Q r s) (hstop : e.image = none → R s.1) : wp (described env) Q (Ends R) s := by
  unfold described
  rw [wp_bind]
  exact wp_description hv hs (fun _ _ _ _ _ => hok _) hstop

/-- `openFile` ends in a Worker with the invariant, or stays. -/
theorem wp_openFile (hw : Inv s.1) (hv : s.1.vault = some e) (file : Bytes) :
    wp (openFile env file) (fun _ s' => Inv s'.1) (Ends (Stays s.1)) s := by
  have hs := hw.sound e hv
  have hb := hw.idle e hv
  unfold openFile source
  rw [wp_bind, wp_register]
  refine wp_catching_throw ?_
  rw [wp_bind]
  refine wp_call (s := (s.1.withSource ⟨file, .blob⟩, s.2)) (e := e)
    (fun io hio => Engine.meets_openDisk hs.wf hio _ _) hv ?_ ?_
  · intro _ e' t hd
    obtain ⟨hs', hb', img, hi, hsrc⟩ := opened_of_done hs hd
    rw [wp_bind]
    refine wp_makeCurrent hw hs' hb' hi hsrc ?_
    intro w' hinv hv'
    refine wp_described hv' hs' (fun _ => hinv) ?_
    intro hnone
    rw [hi] at hnone
    cases hnone
  · intro st e' t hstop _ t'
    obtain ⟨ha, hbuild⟩ := Alike.of_stopped hstop
    exact Stays.withdrawn hw ((Near.withSource s.1 _).put hv ha) (Idle.put (hbuild.trans hb))

/-- Arguments of a remote disk are accepted or refused, with nothing changed. -/
theorem wp_remoteArguments {Q : Unit → State P × Nat → Prop} {a : RemoteArguments} (hok : Q () s)
    (hstop : R s.1) : wp (remoteArguments a) Q (Ends R) s := by
  unfold remoteArguments
  rw [wp_bind]
  refine wp_require (fun _ => ?_) (fun _ _ => hstop)
  rw [wp_bind]
  refine wp_require (fun _ => ?_) (fun _ _ => hstop)
  rw [wp_bind, wp_self]
  exact wp_require (fun _ => hok) (fun _ _ => hstop)

/-- Nothing fails once `vault.open` of a publication has returned. -/
def Env.Settles (env : Env) : Prop := env.opened = false ∧ env.startPrefetch = .ok ()

/-- `openRemote` ends in a Worker with the invariant, or stays, where nothing fails after `vault.open`. -/
theorem wp_openRemote (hw : Inv s.1) (hv : s.1.vault = some e) (hsettles : env.Settles)
    (a : RemoteArguments) (hasReadKey : Bool) :
    wp (openRemote env a hasReadKey) (fun _ s' => Inv s'.1) (Ends (Stays s.1)) s := by
  have hs := hw.sound e hv
  have hb := hw.idle e hv
  have hstays := Stays.refl hw
  unfold openRemote
  rw [wp_bind]
  refine wp_require (fun _ => ?_) (fun _ _ => hstays)
  rw [wp_bind]
  refine wp_remoteArguments ?_ hstays
  rw [wp_bind]
  refine wp_ofResult (fun r _ => ?_) (fun _ _ _ => hstays)
  dsimp only
  rw [wp_bind, wp_register]
  refine wp_catching_throw ?_
  rw [wp_bind]
  refine wp_call (s := (s.1.withSource ⟨r.2, .remote r.1⟩, s.2)) (e := e)
    (fun io hio => Engine.meets_openDisk hs.wf hio _ _) hv ?_ ?_
  · intro _ e' t hd
    obtain ⟨hs', hb', img, hi, hsrc⟩ := opened_of_done hs hd
    rw [wp_bind]
    refine wp_require (fun _ => ?_) (fun hcancelled => absurd hsettles.1 hcancelled)
    rw [wp_bind]
    refine wp_makeCurrent hw hs' hb' hi hsrc ?_
    intro w' hinv hv'
    rw [wp_bind, hsettles.2]
    refine wp_described hv' hs' (fun _ => hinv) ?_
    intro hnone
    rw [hi] at hnone
    cases hnone
  · intro st e' t hstop _ t'
    obtain ⟨ha, hbuild⟩ := Alike.of_stopped hstop
    exact Stays.withdrawn hw ((Near.withSource s.1 _).put hv ha) (Idle.put (hbuild.trans hb))

/-- A candidate that was opened read-only. -/
theorem wp_openCandidate {Q : Engine P → State P × Nat → Prop} {id : String} {total : Nat}
    {readKey : Bytes}
    (hok : ∀ e' img t, Sound e' → e'.build = none → e'.image = some img → img.source = id →
      Q e' (s.1, t))
    (hstop : R s.1) : wp (openCandidate env id total readKey) Q (Ends R) s := by
  unfold openCandidate
  rw [wp_bind, wp_self, wp_zoom]
  refine wp_mono (wp_and (wp_openReadOnly_spec (within_any _))
    (wp_and (wp_openReadOnly (within_any _)) (wp_openReadOnly_live (within_any _)))) ?_
    (fun _ _ _ _ => hstop)
  intro e' t h
  obtain ⟨hspec, hwf, hlive⟩ := h
  obtain ⟨_, _, _, _, img, -, -, -, -, -, -, hkept, he'⟩ := hspec.opened
  refine hok e' img t.2 ⟨hwf, hlive⟩ (by rw [he']) (by rw [he']) ?_
  rw [hkept.1]
  rfl

/-- The vault becomes the candidate. -/
theorem wp_adoptCandidate {v : Source} {e' : Engine P} {img : Image} (hw : Inv s.1)
    (hs : Sound e') (hb : e'.build = none) (hi : e'.image = some img)
    (hsrc : img.source = sourceName (s.1.sourceId + 1)) :
    Inv { s.1.withSource v with
      vault := some e', current := some (sourceName (s.1.sourceId + 1)), prepared := none } := by
  refine Inv.adopt hw.named rfl hs hb hi hsrc rfl (Sources.get_append_self hw.named.fresh.1)
    (fun x hx => hx) rfl ?_ (fun c hc => ⟨s.1, hw.candidate c hc, le_refl _⟩)
  intro p hp
  cases hp

/-- `openReadOnly` ends in a Worker with the invariant, or stays. -/
theorem wp_openReadOnly' (hw : Inv s.1) (file readKey : Bytes) :
    wp (openReadOnly env file readKey) (fun _ s' => Inv s'.1) (Ends (Stays s.1)) s := by
  have hstays := Stays.refl hw
  have hback := Stays.withdrawn hw (Near.withSource s.1 ⟨file, .blob⟩) hw.idle
  unfold openReadOnly
  rw [wp_bind, wp_self, wp_bind]
  refine wp_require (fun _ => ?_) (fun _ _ => hstays)
  rw [wp_bind]
  refine wp_require (fun _ => ?_) (fun _ _ => hstays)
  unfold source
  rw [wp_bind, wp_register]
  refine wp_catching_throw ?_
  rw [wp_bind]
  refine wp_openCandidate ?_ (fun _ => hback)
  intro e' img t hs' hb' hi hsrc
  rw [wp_bind]
  refine wp_poll ?_ (fun _ => hback)
  rw [wp_bind, wp_update]
  refine wp_described (e := e') rfl hs' (fun _ => wp_adoptCandidate hw hs' hb' hi hsrc) ?_
  intro hnone
  rw [hi] at hnone
  cases hnone

/-- Both fields that the handler resets are as they were, since there was no vault. -/
theorem wp_openRemoteReadOnly (hw : Inv s.1) (a : RemoteArguments) (readKey : Bytes) :
    wp (openRemoteReadOnly env a readKey) (fun _ s' => Inv s'.1) (Ends (Stays s.1)) s := by
  have hstays := Stays.refl hw
  unfold openRemoteReadOnly
  rw [wp_bind, wp_self, wp_bind]
  refine wp_require (fun hnone => ?_) (fun _ _ => hstays)
  have hvault : s.1.vault = none := Option.isNone_iff_eq_none.mp hnone
  obtain ⟨hcurrent, hprepared⟩ := hw.shut hvault
  rw [wp_bind]
  refine wp_require (fun _ => ?_) (fun _ _ => hstays)
  rw [wp_bind]
  refine wp_remoteArguments ?_ hstays
  rw [wp_bind]
  refine wp_ofResult (fun r _ => ?_) (fun _ _ _ => hstays)
  dsimp only
  -- whatever the vault and the current source are by then, the handler puts them back
  have hback : ∀ (v : Option (Engine P)) (c : Option String) (p : Option Prepared) (t : Nat),
      p = s.1.prepared →
      wp (resetVault (sourceName (s.1.sourceId + 1))) (fun _ s' => Stays s.1 s'.1)
        (Ends (Stays s.1))
        ({ s.1.withSource ⟨r.2, .remote r.1⟩ with vault := v, current := c, prepared := p }, t) := by
    intro v c p t hp
    refine ⟨⟨?_, ?_, Nat.le_succ _, hcurrent.symm, hp, rfl, rfl, rfl, rfl⟩, ?_⟩
    · rw [hvault]
      exact .none
    · exact (Sources.delete_append_self hw.named.fresh.1).trans (List.append_nil _).symm
    · intro e he
      cases he
  rw [wp_bind, wp_register]
  refine wp_catching_throw ?_
  rw [wp_bind]
  refine wp_openCandidate ?_ (fun t => hback s.1.vault s.1.current s.1.prepared t rfl)
  intro e' img t hs' hb' hi hsrc
  rw [wp_bind]
  refine wp_poll ?_ (fun t => hback s.1.vault s.1.current s.1.prepared t rfl)
  rw [wp_bind, wp_update, wp_bind]
  refine wp_ofResult (fun _ _ => ?_) (fun _ _ _ t => hback _ _ _ t hprepared.symm)
  refine wp_described (e := e') rfl hs' (fun _ => wp_adoptCandidate hw hs' hb' hi hsrc) ?_
  intro hnone
  rw [hi] at hnone
  cases hnone

/-- `e'` reads from the source `e` reads from. -/
structure SameSource (e e' : Engine P) : Prop where
  image : ∀ img', e'.image = some img' → ∃ img, e.image = some img ∧ img'.source = img.source
  absent : e'.image = none → e.image = none

/-- A call replaces the overlay, and nothing else that the invariant speaks of. -/
theorem Inv.put {w : State P} {e' : Engine P} (hw : Inv w) (hv : w.vault = some e) (hs : Sound e')
    (hb : e'.build = none) (hsame : SameSource e e') : Inv (w.put e') := by
  have himage : w.image = e.image := by
    unfold State.image
    rw [hv]
    rfl
  refine ⟨?_, Idle.put hb, ?_, ?_, ?_, hw.named.put e', ?_⟩
  · intro e₁ he₁
    rwa [← Option.some.inj he₁]
  · intro img' hi'
    obtain ⟨img, hi, hsrc⟩ := hsame.image img' hi'
    rw [hsrc]
    exact hw.image img (himage.trans hi)
  · intro hnone
    exact hw.closed (himage.trans (hsame.absent hnone))
  · intro hnone
    cases hnone
  · intro c hc
    have hok := hw.candidate c hc
    exact ⟨hok.sound, hok.idle, hok.image, hok.named, hok.job⟩

/-- A call that stops, or that changes no more than the caches. -/
theorem Stays.put {w w' : State P} {e' : Engine P} (h : Stays w w') (hv : w'.vault = some e)
    (ha : Alike e e') (hb : e'.build = none) : Stays w (w'.put e') :=
  ⟨h.near.put hv ha, Idle.put hb⟩

/-- A call of the engine that stopped leaves the Worker where it is. -/
theorem Stays.stopped {w w' : State P} {e' : Engine P} {c : Call} (h : Stays w w')
    (hv : w'.vault = some e) (hstop : e.Stopped anyHost c e') : Stays w (w'.put e') := by
  obtain ⟨ha, hbuild⟩ := Alike.of_stopped hstop
  exact h.put hv ha (hbuild.trans (h.idle e hv))

/-- `save` ends in a Worker with the invariant, or stays. -/
theorem wp_save (hw : Inv s.1) (hv : s.1.vault = some e) :
    wp (save env) (fun _ s' => Inv s'.1) (Ends (Stays s.1)) s := by
  have hs := hw.sound e hv
  have hb := hw.idle e hv
  have hstays := Stays.refl hw
  unfold save
  rw [wp_bind]
  refine wp_call (fun io hio => Engine.meets_beginSave hs.wf hio) hv ?_ ?_
  · intro changed e' t hd
    have hsound : Sound e → Sound e' := fun hs => ⟨hd.wf hs.wf, hd.live hs.live⟩
    cases changed with
    -- Something has changed: a build begins, and the new file is current when it is accepted.
    | true =>
      have hbegun : Alike e e' ∧ e'.build.isSome = true := by
        cases hd with
        | saveChanged hk hi hdiff hbegun =>
          obtain ⟨id, disk, salt, header, -, -, -, -, -, rfl⟩ := hbegun
          have ha := Alike.of_kept hk
          exact ⟨⟨ha.identity, ha.revision, ha.image, ha.absent, hsound⟩, rfl⟩
      have hmid : Mid [] s.1 (s.1.put e') :=
        ⟨(Near.refl s.1).put hv hbegun.1, hw.named.put e', e', rfl, hsound hs, hbegun.2⟩
      rw [if_pos rfl]
      refine wp_mono (wp_build (s := (s.1.put e', t)) hw hmid) (fun _ _ h => h.inv) ?_
      intro st s' h hne
      exact ⟨(h hne).1, (h hne).2.1⟩
    -- Nothing has changed: the overlay is dropped, and the image reads the same file as before.
    | false =>
      have halike : Alike e e' ∧ e'.build = none := by
        cases hd with
        | saveUnchanged hid hb hk hi hp =>
          have ha := Alike.of_kept hk
          refine ⟨⟨ha.identity, ha.revision, ha.image, ha.absent, hsound⟩, ?_⟩
          show _ = none
          rw [hk.same]
          exact hb
      have hstays' : Stays s.1 (s.1.put e') := hstays.put hv halike.1 halike.2
      have hw' := hstays'.inv hw
      rw [if_neg (by decide), wp_bind]
      refine wp_poll ?_ hstays'
      rw [wp_bind]
      refine wp_call (e := e') (fun io _ => Engine.meets_acceptUnchanged (hsound hs).wf) rfl ?_ ?_
      · intro _ e'' t' hd'
        have hs'' : Sound e'' := ⟨hd'.wf (hsound hs).wf, hd'.live (hsound hs).live⟩
        obtain ⟨img, hi, himg, hb''⟩ : ∃ img, e'.image = some img ∧
            e''.image = some { img with dirty := ∅ } ∧ e''.build = e'.build := by
          cases hd' with
          | acceptUnchanged hid hu hi => exact ⟨_, hi, rfl, rfl⟩
        have hinv : Inv ((s.1.put e').put e'') := by
          refine hw'.put rfl hs'' (hb''.trans halike.2) ⟨?_, ?_⟩
          · intro img' hi'
            rw [himg] at hi'
            obtain rfl := Option.some.inj hi'
            exact ⟨img, hi, rfl⟩
          · intro hnone
            rw [himg] at hnone
            cases hnone
        rw [wp_bind]
        refine wp_description (e := e'') rfl hs'' (fun _ _ _ _ _ => hinv) ?_
        intro hnone
        rw [himg] at hnone
        cases hnone
      · intro st e'' t' hstop _
        exact hstays'.stopped rfl hstop
  · intro st e' t hstop _
    exact hstays.stopped hv hstop

/-- So does `createEmpty`. -/
theorem wp_createEmpty (hw : Inv s.1) (hv : s.1.vault = some e) (sizeBytes : Option Nat) :
    wp (createEmpty env sizeBytes) (fun _ s' => Inv s'.1) (Ends (Stays s.1)) s := by
  unfold createEmpty
  cases sizeBytes with
  | none => exact fun _ => Stays.refl hw
  | some size =>
    dsimp only
    rw [wp_bind]
    exact wp_require (fun _ => wp_createFrom hw hv _) (fun _ _ => Stays.refl hw)

/-- A new identity is open and holds nothing. -/
theorem new_ok {username machine : String} {password : Bytes}
    (h : Engine.new P username password machine = .ok e) :
    Sound e ∧ e.build = none ∧ e.image = none ∧
      ∃ id : Identity P, e.identity = some id ∧ id.active = true := by
  have hwf : e.WF anyHost := Engine.wf_new h
  have hreach : Reachable anyHost e := .new h
  have hlive : e.Live := hreach.live
  unfold Engine.new at h
  obtain ⟨id, hid, h⟩ := ok_of_bind h
  obtain rfl := Except.ok.inj h
  refine ⟨⟨hwf, hlive⟩, rfl, rfl, id, rfl, ?_⟩
  have hid := mapError_eq_ok hid
  unfold deriveIdentity at hid
  split at hid
  · cases hid
  · split at hid
    · cases hid
    · dsimp only at hid
      split at hid
      · cases hid
      · split at hid
        · cases hid
        · obtain rfl := Except.ok.inj hid
          rfl

/-- So does `unlock`. -/
theorem wp_unlock (hw : Inv s.1) (username : String) (password : Bytes) (machine : String) :
    wp (unlock username password machine) (fun _ s' => Inv s'.1) (Ends (Stays s.1)) s := by
  have hstays := Stays.refl hw
  unfold unlock
  rw [wp_bind, wp_self, wp_bind]
  refine wp_require (fun hnone => ?_) (fun _ _ => hstays)
  have hvault : s.1.vault = none := Option.isNone_iff_eq_none.mp hnone
  have hcurrent := (hw.shut hvault).1
  rw [wp_bind]
  refine wp_ofResult (fun e he => ?_) (fun _ _ _ => hstays)
  obtain ⟨hs, hb, hi, id, hid, hactive⟩ := new_ok he
  have hkey : id.publicKeyBytes = .ok id.publicKey.val := by
    unfold Identity.publicKeyBytes Identity.check
    rw [if_pos hactive]
    rfl
  rw [wp_bind, wp_update, hid]
  dsimp only
  rw [wp_bind, hkey]
  refine (wp_pure _).mpr ?_
  rw [wp_bind, wp_update, wp_pure]
  refine ⟨?_, Idle.put (w := s.1) hb, ?_, ?_, ?_, ⟨hw.named.sources, hw.named.current⟩, ?_⟩
  · intro e' he'
    rwa [← Option.some.inj he']
  · intro img himg
    have himg : e.image = some img := himg
    rw [hi] at himg
    cases himg
  · intro _
    show s.1.input = none
    unfold State.input
    rw [hcurrent]
    rfl
  · intro hnone
    cases hnone
  · intro c hc
    have hok := hw.candidate c hc
    exact ⟨hok.sound, hok.idle, hok.image, hok.named, hok.job⟩

end Open

end My98.Web.Worker
