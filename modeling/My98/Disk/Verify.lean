/-
  My98.Disk.Verify — what a verification digest is the digest of
  (`src/disk/src/lib.rs`: `verify_start`, `verify_step`, `verify_image`).

  A verification hashes the image chunk by chunk and survives failed steps: the running hash
  and the next index advance BEFORE the last look at the cancellation flag, so that a step may
  fail after it has advanced, and the retry must neither skip the chunk nor hash it again.

    • `Hashing`  — the invariant: a hash of the current revision has been fed exactly the chunks
      below its index, whatever calls came in between;
    • `Outdated` — a hash of an earlier revision, which no call but `verify_start` repairs;
    • `verification_digest` — both, for every run of every reachable engine;
    • `wp_verifyImage` — the loop of `verify_image` ends, and with the same digest.
-/
import Mathlib.Algebra.Order.Ring.Nat
import Mathlib.Tactic.Common
import My98.Disk.Device

namespace My98.Disk

open My98.Lib My98.Crypto

variable {P : Primitives}

/-! ## §1. The running hash. -/

/-- A hash of the current revision holds the chunks below its index, each once and in order. -/
structure Engine.Hashing (e : Engine P) (host : Host) : Prop where
  stamp : ∀ fed index revision, e.hash = some (fed, index, revision) → revision ≤ e.revision
  fed : ∀ fed index, e.hash = some (fed, index, e.revision) →
    ∀ base content, e.Stores host base content → fed = content.take (index * CHUNK)

section Hashing

variable {host : Host} {e e' : Engine P} {base content : Bytes}

/-- Likeness of images is symmetric. -/
theorem Image.Like.symm {img img' : Image} (h : img.Like img') : img'.Like img := by
  unfold Image.Like at h ⊢
  rw [h]

/-- A call that touches only the cache shows nothing that was not there before. -/
theorem Engine.Kept.stored (hk : e.Kept host e') (h : e'.Stores host base content) :
    e.Stores host base content := by
  obtain ⟨img', hi', ho, hc⟩ := h
  cases hi : e.image with
  | none =>
    have hnone := hk.absent hi
    rw [hi'] at hnone
    cases hnone
  | some img =>
    obtain ⟨img₂, hi₂, hlike, -⟩ := hk.image img hi
    rw [hi'] at hi₂
    obtain rfl := Option.some.inj hi₂
    exact ⟨img, hi, hlike.symm.over P ho, (hlike.symm.content base).trans hc⟩

/-- The hash goes on when neither it, nor the revision, nor the content has changed. -/
theorem Engine.Hashing.of_same (h : e.Hashing host) (hhash : e'.hash = e.hash)
    (hrevision : e'.revision = e.revision)
    (hstored : ∀ base content, e'.Stores host base content → e.Stores host base content) :
    e'.Hashing host where
  stamp := by
    intro fed index revision hh
    rw [hrevision]
    rw [hhash] at hh
    exact h.stamp fed index revision hh
  fed := by
    intro fed index hh base content hs
    rw [hhash, hrevision] at hh
    exact h.fed fed index hh base content (hstored base content hs)

/-- An engine without a digest under way. -/
theorem Engine.Hashing.of_none (h : e.hash = none) : e.Hashing host where
  stamp := by
    intro fed index revision hh
    rw [h] at hh
    cases hh
  fed := by
    intro fed index hh
    rw [h] at hh
    cases hh

/-- An engine that kept its disk goes on with its digest. -/
theorem Engine.Kept.hashing (hk : e.Kept host e') (h : e.Hashing host) : e'.Hashing host := by
  refine h.of_same ?_ ?_ fun _ _ => hk.stored
  · rw [hk.same]
  · rw [hk.same]

/-- One more chunk. -/
theorem take_chunk (content : Bytes) (index : Nat) :
    content.take (index * CHUNK)
        ++ slice content (index * CHUNK) (chunkLen content.length index)
      = content.take ((index + 1) * CHUNK) := by
  have hlen : chunkLen content.length index = min CHUNK (content.length - index * CHUNK) := by
    unfold chunkLen
    omega
  rw [Nat.add_mul, Nat.one_mul, List.take_add, slice, hlen]
  congr 1
  rw [List.take_eq_take_iff, List.length_drop]
  omega

/-- **The next chunk is the one below the next index**, and past the end nothing is fed. -/
theorem Engine.Fed.fed_eq {img : Image} {fed fed' : Bytes} {index index' : Nat}
    (hf : e.Fed host img fed index e' fed' index') (hi : e.image = some img)
    (hs : e.Stores host base content) (h : fed = content.take (index * CHUNK)) :
    fed' = content.take (index' * CHUNK) := by
  rcases hf with ⟨-, -, rfl, rfl⟩ | ⟨hlt, e₁, bytes, hk, hlen, hshown, -, rfl, rfl⟩
  · exact h
  · obtain ⟨img', hi', ho, rfl⟩ := hs
    rw [hi] at hi'
    obtain rfl := Option.some.inj hi'
    have hbound : index * CHUNK + chunkLen img.size index ≤ img.size := by
      unfold chunkLen
      omega
    have hsize : img.size = (img.content base).length := (Image.length_content img base).symm
    rw [hshown.eq_slice ho hlen hbound, h, hsize]
    exact take_chunk _ index

/-- A stretch that was fed leaves the content. -/
theorem Engine.Fed.stored {img : Image} {fed fed' : Bytes} {index index' : Nat}
    (hf : e.Fed host img fed index e' fed' index') (hs : e'.Stores host base content) :
    e.Stores host base content := by
  rcases hf with ⟨-, rfl, -⟩ | ⟨-, e₁, bytes, hk, -, -, rfl, -, -⟩
  · exact hs
  · exact hk.stored hs

/-- The digest has had one more stretch. -/
theorem Engine.Fed.hashing {img : Image} {fed fed' : Bytes} {index index' : Nat}
    (hf : e.Fed host img fed index e' fed' index') (hi : e.image = some img)
    (hh : e.hash = some (fed, index, e.revision)) (h : e.Hashing host) : e'.Hashing host := by
  have hfed : ∀ base content, e.Stores host base content → fed' = content.take (index' * CHUNK) :=
    fun base content hs => hf.fed_eq hi hs (h.fed fed index hh base content hs)
  have hstored : ∀ base content, e'.Stores host base content → e.Stores host base content :=
    fun _ _ => hf.stored
  rcases hf with ⟨-, rfl, -⟩ | ⟨-, e₁, bytes, hk, -, -, rfl, rfl, rfl⟩
  · exact h
  · have hrevision : e₁.revision = e.revision := by rw [hk.same]
    refine ⟨?_, ?_⟩
    · intro fed₂ index₂ revision hh₂
      obtain ⟨-, -, rfl⟩ : _ ∧ _ ∧ e.revision = revision := by simpa using hh₂
      show e.revision ≤ e₁.revision
      omega
    · intro fed₂ index₂ hh₂ base content hs
      obtain ⟨rfl, rfl, -⟩ : fed ++ bytes = fed₂ ∧ index + 1 = index₂ ∧ _ := by simpa using hh₂
      exact hfed base content (hstored base content hs)

end Hashing

/-! ## §2. Every call keeps it. -/

section Steps

variable {host : Host} {e e' : Engine P} {c : Call} {v : Value} {base content : Bytes}

/-- Without an image there is nothing to hash. -/
theorem Engine.WF.hash_none (hwf : e.WF host) (hi : e.image = none) : e.hash = none := by
  cases hh : e.hash with
  | none => rfl
  | some h =>
    obtain ⟨fed, index, revision⟩ := h
    obtain ⟨img, hi', -⟩ := hwf.hash _ _ _ hh
    rw [hi] at hi'
    cases hi'

/-- A build that begins leaves the digest alone. -/
theorem Engine.Begun.hashing {raw : Option String} {size : Nat} (hb : e.Begun raw size e')
    (h : e.Hashing host) : e'.Hashing host := by
  obtain ⟨id, disk, salt, header, -, -, -, -, -, rfl⟩ := hb
  exact h.of_same rfl rfl fun _ _ hs => hs

/-- A digest of an older revision is still of that. -/
theorem Engine.Hashing.of_revision (h : e.Hashing host) (hhash : e'.hash = e.hash)
    (hlt : e.revision < e'.revision) : e'.Hashing host where
  stamp := by
    intro fed index revision hh
    rw [hhash] at hh
    have hle := h.stamp fed index revision hh
    omega
  fed := by
    intro fed index hh
    rw [hhash] at hh
    have hle := h.stamp fed index _ hh
    omega

/-- The image with another cache, and with no overlay where the overlay showed nothing. -/
theorem Engine.stores_of_image {img img' : Image} (hi : e.image = some img)
    (hi' : e'.image = some img')
    (hover : img'.Over P host base → img.Over P host base ∧ img.content base = img'.content base)
    (hs : e'.Stores host base content) : e.Stores host base content := by
  obtain ⟨i, hi₂, ho, rfl⟩ := hs
  obtain rfl := Option.some.inj (hi'.symm.trans hi₂)
  obtain ⟨ho', hsame⟩ := hover ho
  exact ⟨img, hi, ho', hsame⟩

/-- A call that succeeds keeps the digest right. -/
theorem Engine.Done.hashing (hwf : e.WF host) (h : Done host e c v e') (hh : e.Hashing host) :
    e'.Hashing host := by
  cases h with
  | openDisk hid hi => exact .of_none (hwf.hash_none hi)
  | beginCreate hi hb => exact hb.hashing hh
  | saveChanged hk hi hd hb => exact hb.hashing (hk.hashing hh)
  | saveUnchanged hid hb hk => exact (hk.hashing hh).of_same rfl rfl fun _ _ hs => hs
  | @acceptUnchanged img hid hu hi =>
    -- the overlay that is dropped showed nothing but the base
    refine hh.of_same rfl rfl fun base content => ?_
    refine Engine.stores_of_image hi rfl fun ho => ?_
    have ho' : img.Over P host base := ⟨ho.length_base, ho.authentic⟩
    obtain ⟨-, img', hi', hp⟩ := hwf.unchanged _ hu
    obtain rfl := Option.some.inj (hi.symm.trans hi')
    refine ⟨ho', ?_⟩
    rw [Image.content_empty ho']
    exact (hp rfl).content ho' (hwf.image _ hi)
  | nextEnd => exact hh
  | nextChunk hb hr hlt hk => exact (hk.hashing hh).of_same rfl rfl fun _ _ hs => hs
  | accept => exact .of_none rfl
  | cancel => exact .of_none rfl
  | read hk => exact hk.hashing hh
  | writeEmpty => exact hh
  | write => exact hh.of_revision rfl (Nat.lt_succ_self _)
  | discard => exact .of_none rfl
  | clearCache =>
    refine hh.of_same rfl rfl fun base content hs => ?_
    obtain ⟨i, hi', ho, rfl⟩ := hs
    obtain ⟨img, hi, rfl⟩ := Option.map_eq_some_iff.mp hi'
    exact ⟨img, hi, ⟨ho.length_base, ho.authentic⟩, rfl⟩
  | verifyStart =>
    refine ⟨?_, ?_⟩
    · intro fed index revision hs
      obtain ⟨-, -, rfl⟩ : _ ∧ _ ∧ e.revision = revision := by simpa using hs
      exact le_rfl
    · intro fed index hs base content _
      obtain ⟨rfl, rfl⟩ : fed = [] ∧ 0 = index := by simpa using hs
      simp
  | verifyMore hi hhash hf => exact hf.hashing hi hhash hh
  | verifyEnd => exact .of_none rfl

/-- A step that fails after it has advanced has fed the chunk it advanced over. -/
theorem Engine.Stopped.hashing (h : Stopped host e c e') (hh : e.Hashing host) :
    e'.Hashing host := by
  cases h with
  | kept hk => exact hk.hashing hh
  | fed hi hhash hf => exact hf.hashing hi hhash hh

/-- **Every call keeps the digest right.** -/
theorem Engine.step_hashing (hwf : e.WF host) {io : Io} (hio : io.Within host)
    {r : Except Stop Value} (h : e.step io c = (r, e')) (hh : e.Hashing host) :
    e'.Hashing host := by
  have hout := Engine.step_spec hwf hio h
  cases r with
  | ok v => exact Engine.Done.hashing hwf hout hh
  | error st => exact hout.2.hashing hh

/-- A fork has nothing in progress. -/
theorem Engine.forkState_hash {bytes : Bytes} {s : Engine P × Nat} :
    wp (Engine.forkState bytes) (fun f _ => f.hash = none) (fun _ _ => True) s := by
  unfold Engine.forkState
  rw [wp_bind, Engine.wp_self, wp_bind]
  refine wp_require (fun _ => ?_) (fun _ => trivial)
  cases hi : s.1.image with
  | none => exact trivial
  | some img =>
    dsimp only
    rw [wp_bind]
    refine wp_ofResult (fun dirty _ => ?_) (fun _ _ => trivial)
    rw [wp_bind]
    refine wp_ofCrypto (fun key _ => ?_) (fun _ => trivial)
    rw [wp_bind]
    refine wp_ofCrypto (fun disk _ => ?_) (fun _ => trivial)
    rw [wp_pure]

/-- **Every reachable engine hashes in order.** -/
theorem Reachable.hashing (h : Reachable host e) : e.Hashing host := by
  induction h with
  | new h =>
    unfold Engine.new at h
    obtain ⟨identity, -, h⟩ := ok_of_bind h
    obtain rfl := Except.ok.inj h
    exact .of_none rfl
  | openReadOnly hio h =>
    have hopened := wp_of_ok (wp_openReadOnly_spec hio) h
    obtain ⟨capability, b, size, disk, img, -, -, -, -, -, -, -, rfl⟩ := hopened.opened
    exact .of_none rfl
  | fork hr h =>
    have hnone := wp_of_ok (Engine.forkState_hash (s := (_, _))) h
    exact .of_none hnone
  | step hio hr ih => exact Engine.step_hashing hr.wf hio rfl ih

/-- The digest of a step that ends is that of the whole content. -/
theorem Engine.Done.digest {d : Bytes} (h : Done host e .verifyStep (.maybe (some d)) e')
    (hh : e.Hashing host) (hs : e.Stores host base content) : d = P.sha256 content := by
  cases h with
  | @verifyEnd img fed fed' index index' e₁ hi hhash hf hend =>
    have hfed := hf.fed_eq hi hs (hh.fed fed index hhash base content hs)
    obtain ⟨img', hi', -, hcontent⟩ := hs
    obtain rfl := Option.some.inj (hi.symm.trans hi')
    have hlen : content.length = img.size := by rw [← hcontent, Image.length_content]
    have hall : content.length ≤ index' * CHUNK := by
      rcases hf with ⟨hle, -, -, rfl⟩ | ⟨-, e₁, bytes, -, -, -, -, -, rfl⟩
      · omega
      · rw [Nat.add_mul]
        omega
    rw [hfed, List.take_of_length_le hall]

end Steps

/-! ## §3. Hashes that have gone stale. -/

/-- A call that returned and changed the content. -/
def changes : Call × Except Stop Value → Bool
  | (.write _ bytes, .ok _) => !bytes.isEmpty
  | (.discard, .ok _) => true
  | (.accept _ _, .ok _) => true
  | _ => false

/-- A call that returned and started a new verification. -/
def restarts : Call × Except Stop Value → Bool
  | (.verifyStart, .ok _) => true
  | _ => false

/-- Something has changed the content since the last verification was started. -/
def Changed (results : List (Call × Except Stop Value)) : Prop :=
  ∃ before x after, results = before ++ x :: after ∧ changes x = true ∧
    ∀ y ∈ after, restarts y = false

/-- A running hash, if there is one, belongs to an earlier revision. -/
def Engine.Outdated (e : Engine P) : Prop :=
  ∀ fed index revision, e.hash = some (fed, index, revision) → revision < e.revision

section Outdated

variable {host : Host} {e e' : Engine P} {c : Call} {v : Value} {base content : Bytes}

/-- Where no digest is under way, none is of this revision. -/
theorem Engine.Outdated.of_none (h : e.hash = none) : e.Outdated := by
  intro fed index revision hh
  rw [h] at hh
  cases hh

/-- An outdated digest stays so while revisions grow. -/
theorem Engine.Outdated.of_same (h : e.Outdated) (hhash : e'.hash = e.hash)
    (hrevision : e.revision ≤ e'.revision) : e'.Outdated := by
  intro fed index revision hh
  rw [hhash] at hh
  have hlt := h fed index revision hh
  omega

/-- An engine that kept its disk has the digest that it had. -/
theorem Engine.Kept.outdated (hk : e.Kept host e') (h : e.Outdated) : e'.Outdated := by
  rw [hk.same]
  exact h.of_same rfl le_rfl

/-- A stale hash is fed nothing. -/
theorem Engine.Outdated.not_current (h : e.Outdated) {fed : Bytes} {index : Nat} :
    e.hash ≠ some (fed, index, e.revision) := by
  intro hh
  exact Nat.lt_irrefl _ (h fed index _ hh)

/-- A change of the content outdates the hash, or drops it. -/
theorem Engine.Done.outdates (h : Done host e c v e') (hh : e.Hashing host)
    (hc : changes (c, .ok v) = true) : e'.Outdated := by
  cases h with
  | write =>
    intro fed index revision hs
    exact Nat.lt_succ_of_le (hh.stamp fed index revision hs)
  | discard => exact .of_none rfl
  | accept => exact .of_none rfl
  | _ => cases hc

/-- Only `verify_start` makes a hash current again. -/
theorem Engine.Done.outdated (h : Done host e c v e') (ho : e.Outdated)
    (hc : restarts (c, .ok v) = false) : e'.Outdated := by
  cases h with
  | openDisk => exact ho.of_same rfl (Nat.le_succ _)
  | beginCreate hi hb =>
    obtain ⟨id, disk, salt, header, -, -, -, -, -, rfl⟩ := hb
    exact ho.of_same rfl le_rfl
  | saveChanged hk hi hd hb =>
    obtain ⟨id, disk, salt, header, -, -, -, -, -, rfl⟩ := hb
    exact (hk.outdated ho).of_same rfl le_rfl
  | saveUnchanged hid hb hk => exact (hk.outdated ho).of_same rfl le_rfl
  | acceptUnchanged => exact ho.of_same rfl le_rfl
  | nextEnd => exact ho
  | nextChunk hb hr hlt hk => exact (hk.outdated ho).of_same rfl le_rfl
  | accept => exact .of_none rfl
  | cancel => exact .of_none rfl
  | read hk => exact hk.outdated ho
  | writeEmpty => exact ho
  | write => exact ho.of_same rfl (Nat.le_succ _)
  | discard => exact .of_none rfl
  | clearCache => exact ho.of_same rfl le_rfl
  | verifyStart => cases hc
  | verifyMore hi hhash => exact absurd hhash ho.not_current
  | verifyEnd => exact .of_none rfl

/-- So has one whose call stopped. -/
theorem Engine.Stopped.outdated (h : Stopped host e c e') (ho : e.Outdated) : e'.Outdated := by
  cases h with
  | kept hk => exact hk.outdated ho
  | fed hi hhash => exact absurd hhash ho.not_current

/-- A call that fails changes nothing. -/
theorem changes_error {st : Stop} : changes (c, .error st) = false := by
  cases c <;> rfl

/-- Only a new start ends an outdated digest. -/
theorem Engine.step_outdated (hwf : e.WF host) {io : Io} (hio : io.Within host)
    {r : Except Stop Value} (h : e.step io c = (r, e')) (ho : e.Outdated)
    (hc : restarts (c, r) = false) : e'.Outdated := by
  have hout := Engine.step_spec hwf hio h
  cases r with
  | ok v => exact Engine.Done.outdated hout ho hc
  | error st => exact hout.2.outdated ho

/-- A change outdates the digest under way. -/
theorem Engine.step_outdates (hwf : e.WF host) {io : Io} (hio : io.Within host)
    {r : Except Stop Value} (h : e.step io c = (r, e')) (hh : e.Hashing host)
    (hc : changes (c, r) = true) : e'.Outdated := by
  cases r with
  | ok v => exact Engine.Done.outdates (Engine.step_spec hwf hio h) hh hc
  | error st =>
    rw [changes_error] at hc
    cases hc

/-- A stale hash yields no step. -/
theorem Engine.Outdated.fails (ho : e.Outdated) (hwf : e.WF host) {io : Io} (hio : io.Within host)
    {r : Except Stop Value} (h : e.step io .verifyStep = (r, e')) : ∃ st, r = .error st := by
  have hout := Engine.step_spec hwf hio h
  cases r with
  | error st => exact ⟨st, rfl⟩
  | ok v =>
    have hdone : Done host e .verifyStep v e' := hout
    cases hdone with
    | verifyMore hi hhash => exact absurd hhash ho.not_current
    | verifyEnd hi hhash => exact absurd hhash ho.not_current

/-- A run without a new start leaves it outdated. -/
theorem Engine.run_outdated (calls : List (Io × Call)) (hio : ∀ x ∈ calls, x.1.Within host) :
    ∀ e : Engine P, e.WF host → e.Outdated → (∀ y ∈ (e.run calls).1, restarts y = false) →
      (e.run calls).2.Outdated := by
  induction calls with
  | nil =>
    intro e _ ho _
    exact ho
  | cons x rest ih =>
    intro e hwf ho hquiet
    obtain ⟨io, c⟩ := x
    cases hstep : e.step io c with
    | mk r e' =>
      have hio₀ : io.Within host := hio (io, c) List.mem_cons_self
      rw [Engine.run_cons hstep] at hquiet ⊢
      exact ih (fun y hy => hio y (List.mem_cons_of_mem _ hy)) e' (Engine.wf_step hwf hio₀ hstep)
        (Engine.step_outdated hwf hio₀ hstep ho (hquiet _ List.mem_cons_self))
        fun y hy => hquiet y (List.mem_cons_of_mem _ hy)

/-- **A change that no `verify_start` followed leaves the hash outdated.** -/
theorem Engine.run_changed (calls : List (Io × Call)) (hio : ∀ x ∈ calls, x.1.Within host) :
    ∀ e : Engine P, e.WF host → e.Hashing host → Changed (e.run calls).1 →
      (e.run calls).2.Outdated := by
  induction calls with
  | nil =>
    rintro e _ _ ⟨before, x, after, hsplit, -⟩
    have hlen := congrArg List.length hsplit
    simp [Engine.run] at hlen
  | cons x rest ih =>
    rintro e hwf hh ⟨before, y, after, hsplit, hy, hafter⟩
    obtain ⟨io, c⟩ := x
    cases hstep : e.step io c with
    | mk r e' =>
      have hio₀ : io.Within host := hio (io, c) List.mem_cons_self
      have hrest : ∀ z ∈ rest, z.1.Within host := fun z hz => hio z (List.mem_cons_of_mem _ hz)
      have hwf' := Engine.wf_step hwf hio₀ hstep
      rw [Engine.run_cons hstep] at hsplit ⊢
      -- the change is this call, or one of the rest
      cases before with
      | nil =>
        obtain ⟨rfl, rfl⟩ := List.cons.inj hsplit
        exact Engine.run_outdated rest hrest e' hwf' (Engine.step_outdates hwf hio₀ hstep hh hy)
          hafter
      | cons b before =>
        obtain ⟨-, htail⟩ := List.cons.inj hsplit
        exact ih hrest e' hwf' (Engine.step_hashing hwf hio₀ hstep hh)
          ⟨before, y, after, htail, hy, hafter⟩

end Outdated

/-! ## §4. The digest of a run. -/

section Run

variable {host : Host} {e e' : Engine P} {c : Call} {v : Value} {base content : Bytes}

/-- Short of a change the content is what it was. -/
theorem Engine.step_quiet (hwf : e.WF host) (hs : e.Stores host base content) {io : Io}
    (hio : io.Within host) {r : Except Stop Value} (h : e.step io c = (r, e'))
    (hc : changes (c, r) = false) : e'.Stores host base content := by
  have hout := Engine.step_spec hwf hio h
  cases r with
  | error st => exact hout.2.stores hs
  | ok v =>
    have hreplaces : c.replacesImage = false := by
      cases c with
      | accept => cases hc
      | _ => rfl
    have hstores := (Engine.Done.refines hout hwf hs hreplaces).2
    cases c with
    | write offset bytes =>
      obtain rfl : bytes = [] := by simpa [changes] using hc
      rw [show Device.after base content (.write offset []) (.ok v) = content from
        splice_nil content offset] at hstores
      exact hstores
    | discard => cases hc
    | _ => exact hstores

/-- A run without a change leaves the content. -/
theorem Engine.run_quiet (calls : List (Io × Call)) (hio : ∀ x ∈ calls, x.1.Within host) :
    ∀ e : Engine P, e.WF host → e.Stores host base content →
      (∀ y ∈ (e.run calls).1, changes y = false) → (e.run calls).2.Stores host base content := by
  induction calls with
  | nil =>
    intro e _ hs _
    exact hs
  | cons x rest ih =>
    intro e hwf hs hquiet
    obtain ⟨io, c⟩ := x
    cases hstep : e.step io c with
    | mk r e' =>
      have hio₀ : io.Within host := hio (io, c) List.mem_cons_self
      rw [Engine.run_cons hstep] at hquiet ⊢
      exact ih (fun y hy => hio y (List.mem_cons_of_mem _ hy)) e' (Engine.wf_step hwf hio₀ hstep)
        (Engine.step_quiet hwf hs hio₀ hstep (hquiet _ List.mem_cons_self))
        fun y hy => hquiet y (List.mem_cons_of_mem _ hy)

/-- What may be said of verification after the calls `calls` of the engine `e`. -/
structure Engine.Verifies (e : Engine P) (host : Host) (calls : List (Io × Call)) : Prop where
  /-- What has been hashed is what lies below the next chunk. -/
  progress : ∀ fed index, (e.run calls).2.hash = some (fed, index, (e.run calls).2.revision) →
    ∀ base content, (e.run calls).2.Stores host base content → fed = content.take (index * CHUNK)
  /-- A step that yields a digest yields that of the whole content. -/
  whole : ∀ io d e', io.Within host →
    (e.run calls).2.step io .verifyStep = (.ok (.maybe (some d)), e') →
    ∀ base content, (e.run calls).2.Stores host base content → d = P.sha256 content
  /-- The content is the one the run started from, if no call has changed it. -/
  same : ∀ base content, e.Stores host base content →
    (∀ y ∈ (e.run calls).1, changes y = false) → (e.run calls).2.Stores host base content
  /-- After a change every step fails, until a verification is started anew. -/
  stale : Changed (e.run calls).1 → ∀ io r e', io.Within host →
    (e.run calls).2.step io .verifyStep = (r, e') → ∃ st, r = .error st

/-- **Stepwise verification.**  Take any engine a host can produce, and any calls, each with a
    host that fails, comes up short, cancels or drops the future as it likes. -/
theorem verification_digest {host : Host} {e : Engine P} (hr : Reachable host e)
    (calls : List (Io × Call)) (hio : ∀ x ∈ calls, x.1.Within host) : e.Verifies host calls := by
  have hrun : Reachable host (e.run calls).2 := Reachable.run calls hio e hr
  refine ⟨hrun.hashing.fed, ?_, ?_, ?_⟩
  · intro io d e' hio' h base content hs
    have hdone : Engine.Done host (e.run calls).2 .verifyStep (.maybe (some d)) e' :=
      Engine.step_spec hrun.wf hio' h
    exact hdone.digest hrun.hashing hs
  · intro base content hs hquiet
    exact Engine.run_quiet calls hio e hr.wf hs hquiet
  · intro hchanged io r e' hio' h
    exact (Engine.run_changed calls hio e hr.wf hr.hashing hchanged).fails hrun.wf hio' h

end Run

/-! The five bytes are verified, cancelled after they were hashed, and the step is repeated. -/

/-- A host that cancels from its `k`-th step on. -/
def lateIo (file : String → Bytes) (k : Nat) : Io :=
  { demoIo file false with cancelled := fun t => decide (k ≤ t) }

/-- The host that cancels late serves the file. -/
theorem lateIo_within (file : String → Bytes) (k : Nat) : (lateIo file k).Within (stored file) :=
  demoIo_within file false

def demoVerify : List (Io × Call) :=
  [(demoIo demoFile false, .verifyStart), (lateIo demoFile 3, .verifyStep),
   (demoIo demoFile false, .clearCache)]

/-- So do the hosts of the demo. -/
theorem demoVerify_within : ∀ x ∈ demoVerify, x.1.Within (stored demoFile) := by
  intro x hx
  simp only [demoVerify, List.mem_cons, List.not_mem_nil, or_false] at hx
  rcases hx with rfl | rfl | rfl
  · exact demoIo_within _ _
  · exact lateIo_within _ _
  · exact demoIo_within _ _

/-- The cancelled step has advanced, and the repeated one yields the digest. -/
theorem demoVerify_digest :
    (demoEngine.run demoVerify).2.hash = some (demoBase, 1, 1) ∧
      ∃ d e', (demoEngine.run demoVerify).2.step (demoIo demoFile false) .verifyStep
        = (.ok (.maybe (some d)), e') ∧ d = plain.sha256 demoBase := by
  have hv := verification_digest demoEngine_reachable demoVerify demoVerify_within
  have hstart : demoEngine.Stores (stored demoFile) demoBase demoBase :=
    ⟨demoImage, rfl, demoImage_over, Image.content_empty demoImage_over⟩
  have hsame := hv.same demoBase demoBase hstart (by decide +kernel)
  obtain ⟨d, hd⟩ : ∃ d, ((demoEngine.run demoVerify).2.step (demoIo demoFile false) .verifyStep).1
      = .ok (.maybe (some d)) := ⟨plain.sha256 demoBase, by decide +kernel⟩
  refine ⟨by decide +kernel, d, _, Prod.ext hd rfl, ?_⟩
  exact hv.whole _ d _ (demoIo_within _ _) (Prod.ext hd rfl) demoBase demoBase hsame

/-! ## §5. The loop of `verify_image`. -/

namespace Engine

/-- `loop { if let Some(hash) = self.verify_step(io).await? { return Ok(hash); } }`, for at
    most `fuel` turns. -/
def verifyLoop (io : Io) : Nat → Async (Engine P) Bytes
  | 0 => throw .diverged
  | fuel + 1 => do
    let hash ← verifyStep io
    match hash with
    | some hash => pure hash
    | none => verifyLoop io fuel

def verifyImage (io : Io) (fuel : Nat) : Async (Engine P) Bytes := do
  verifyStart
  verifyLoop io fuel

end Engine

section Loop

variable {host : Host} {io : Io}

/-- A step that yields nothing is a chunk nearer to the end. -/
theorem Engine.Done.advances {e e' : Engine P} (h : Engine.Done host e .verifyStep (.maybe none) e') :
    ∃ img fed index, e.image = some img ∧ e.hash = some (fed, index, e.revision) ∧
      index * CHUNK + CHUNK < img.size ∧
      ∃ img' fed', e'.image = some img' ∧ img'.size = img.size ∧
        e'.hash = some (fed', index + 1, e'.revision) := by
  cases h with
  | @verifyMore img fed fed' index index' e' hi hh hf hlt =>
    refine ⟨img, fed, index, hi, hh, hlt, ?_⟩
    rcases hf with ⟨hle, -⟩ | ⟨-, e₁, bytes, hk, -, -, rfl, rfl, rfl⟩
    · omega
    · obtain ⟨img', hi', hlike, -⟩ := hk.image img hi
      refine ⟨img', fed ++ bytes, hi', ?_, ?_⟩
      · rw [hlike]
      · rw [hk.same]

/-- A digest that was started has had nothing yet. -/
theorem Engine.Done.started {e e' : Engine P} {v : Value}
    (h : Engine.Done host e .verifyStart v e') :
    ∃ img, e.image = some img ∧ e' = { e with hash := some ([], 0, e.revision) } := by
  cases h with
  | @verifyStart img hi => exact ⟨img, hi, rfl⟩

/-- `e'` is in order, and stores what `e` stores. -/
structure Engine.Follows (host : Host) (e e' : Engine P) : Prop where
  wf : e'.WF host
  hashing : e'.Hashing host
  stores : ∀ base content, e.Stores host base content → e'.Stores host base content

/-- What follows what follows. -/
theorem Engine.Follows.trans {e₁ e₂ e₃ : Engine P} (h : e₁.Follows host e₂)
    (h' : e₂.Follows host e₃) : e₁.Follows host e₃ where
  wf := h'.wf
  hashing := h'.hashing
  stores := fun base content hs => h'.stores base content (h.stores base content hs)

/-- A call that changes nothing is followed. -/
theorem Engine.Done.follows {e e' : Engine P} {c : Call} {v : Value} (h : Engine.Done host e c v e')
    (hwf : e.WF host) (hh : e.Hashing host)
    (hc : ∀ base content, Device.after base content c (.ok v) = content)
    (hreplaces : c.replacesImage = false) : e.Follows host e' where
  wf := h.wf hwf
  hashing := h.hashing hwf hh
  stores := by
    intro base content hs
    have hstores := (h.refines hwf hs hreplaces).2
    rw [hc] at hstores
    exact hstores

/-- So is one that stops. -/
theorem Engine.Stopped.follows {e e' : Engine P} {c : Call} (h : Engine.Stopped host e c e')
    (hwf : e.WF host) (hh : e.Hashing host) : e.Follows host e' where
  wf := h.wf hwf
  hashing := h.hashing hh
  stores := fun _ _ hs => h.stores hs

/-- With a turn for each chunk still to come the loop ends. -/
theorem wp_verifyLoop (hio : io.Within host) : ∀ (fuel : Nat) (s : Engine P × Nat),
    s.1.WF host → s.1.Hashing host →
    (∃ img fed index, s.1.image = some img ∧ s.1.hash = some (fed, index, s.1.revision) ∧
      chunkCount img.size ≤ index + fuel ∧ 0 < fuel) →
    wp (Engine.verifyLoop io fuel)
      (fun d s' => s.1.Follows host s'.1 ∧
        ∀ base content, s.1.Stores host base content → d = P.sha256 content)
      (fun st s' => st.Clean ∧ s.1.Follows host s'.1) s := by
  intro fuel
  induction fuel with
  | zero =>
    rintro s _ _ ⟨_, _, _, _, _, _, hpos⟩
    omega
  | succ fuel ih =>
    rintro s hwf hh ⟨img, fed, index, hi, hhash, hle, -⟩
    unfold Engine.verifyLoop
    rw [wp_bind]
    refine wp_mono (Engine.meets_verifyStep hwf hio) ?_ ?_
    · intro hash s' hdone
      have hfollows : s.1.Follows host s'.1 := hdone.follows hwf hh (fun _ _ => rfl) rfl
      cases hash with
      | some d => exact ⟨hfollows, fun base content hs => hdone.digest hh hs⟩
      | none =>
        obtain ⟨img₁, fed₁, index₁, hi₁, hhash₁, hlt, img₂, fed₂, hi₂, hsize, hhash₂⟩ :=
          hdone.advances
        obtain rfl := Option.some.inj (hi.symm.trans hi₁)
        obtain ⟨-, rfl⟩ : fed = fed₁ ∧ index = index₁ := by simpa [hhash] using hhash₁
        refine wp_mono (ih s' hfollows.wf hfollows.hashing
          ⟨img₂, fed₂, index + 1, hi₂, hhash₂, ?_, ?_⟩) ?_ ?_
        · rw [hsize]
          omega
        · unfold chunkCount divCeil at hle
          simp only [CHUNK] at hle hlt
          omega
        · rintro d s'' ⟨hrest, hdigest⟩
          exact ⟨hfollows.trans hrest, fun base content hs =>
            hdigest base content (hfollows.stores base content hs)⟩
        · rintro st s'' ⟨hst, hrest⟩
          exact ⟨hst, hfollows.trans hrest⟩
    · intro st s' hstop
      exact ⟨hstop.1, hstop.2.follows hwf hh⟩

/-- **`verify_image` ends**, and where it returns, it returns the digest of the content. -/
theorem wp_verifyImage (hio : io.Within host) {e : Engine P} {t : Nat} (hwf : e.WF host)
    (hh : e.Hashing host) {fuel : Nat}
    (hfuel : ∀ img, e.image = some img → chunkCount img.size ≤ fuel) :
    wp (Engine.verifyImage io fuel)
      (fun d s' => e.Follows host s'.1 ∧
        ∀ base content, e.Stores host base content → d = P.sha256 content)
      (fun st s' => st.Clean ∧ e.Follows host s'.1) (e, t) := by
  unfold Engine.verifyImage
  rw [wp_bind]
  refine wp_mono (Engine.meets_verifyStart (s := (e, t)) hwf) ?_ ?_
  · intro _ s' hdone
    obtain ⟨img, hi, hstarted⟩ := hdone.started
    have hle := hfuel img hi
    have hpos := (hwf.image img hi).size_pos
    have hcount : 0 < chunkCount img.size := by
      unfold chunkCount divCeil
      simp only [CHUNK]
      omega
    have hfollows : e.Follows host s'.1 := hdone.follows hwf hh (fun _ _ => rfl) rfl
    refine wp_mono (wp_verifyLoop hio fuel s' hfollows.wf hfollows.hashing
      ⟨img, [], 0, ?_, ?_, ?_, ?_⟩) ?_ ?_
    · rw [hstarted]
      exact hi
    · rw [hstarted]
    · omega
    · omega
    · rintro d s'' ⟨hrest, hdigest⟩
      exact ⟨hfollows.trans hrest, fun base content hs =>
        hdigest base content (hfollows.stores base content hs)⟩
    · rintro st s'' ⟨hst, hrest⟩
      exact ⟨hst, hfollows.trans hrest⟩
  · intro st s' hstop
    exact ⟨hstop.1, hstop.2.follows hwf hh⟩

end Loop

end My98.Disk
