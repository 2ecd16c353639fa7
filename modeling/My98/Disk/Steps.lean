/-
  My98.Disk.Steps — everything one engine call can do
  (`src/disk/src/lib.rs`: `Engine`).

  `Done host e c v e'` lists, one constructor per way of returning, what a call `c` that
  returns `v` does to the engine `e`; `Stopped host e c e'` does the same for a call that
  stops.  `step_spec` says that these lists are COMPLETE, for every host, every pattern of
  failures and every well-formed engine; every later result about runs of the engine is a
  case analysis on them and never opens the code again.

  `Engine.WF` is the invariant that makes this go through, and `wf_step` keeps it.
-/
import My98.Disk.Write

namespace My98.Disk

open My98.Lib My98.Crypto

variable {P : Primitives} {α : Type}

namespace Engine

/-! ## §1. What a call can do. -/

/-- Nothing but the cache of the open image differs, and the image is still well formed. -/
structure Kept (host : Host) (e e' : Engine P) : Prop where
  same : e' = { e with image := e'.image }
  image : ∀ img, e.image = some img → ∃ img', e'.image = some img' ∧ Image.Kept P host img img'
  absent : e.image = none → e'.image = none

/-- `e'` is `e` with a fresh build of `size` bytes in progress. -/
def Begun (e : Engine P) (raw : Option String) (size : Nat) (e' : Engine P) : Prop :=
  ∃ id disk salt header, e.identity = some id ∧ id.active = true ∧ e.build = none
    ∧ disk.active = true ∧ makeHeader id salt disk size = .ok header
    ∧ e' = { e with build := some { disk, size, header, raw, index := 0, revision := e.revision } }

/-- `bytes` is the plaintext of the next chunk of build `b`. -/
def ChunkOf (host : Host) (e : Engine P) (b : Build) (bytes : Bytes) : Prop :=
  bytes.length = chunkLen b.size b.index ∧
  match b.raw with
  | some source => host source (b.index * CHUNK) bytes
  | none => ∃ img, e.image = some img
      ∧ img.Shown P host (b.index * CHUNK) (chunkLen b.size b.index) bytes

/-- The running hash took the next chunk of the image, if there is one. -/
def Fed (host : Host) (e : Engine P) (img : Image) (fed : Bytes) (index : Nat) (e' : Engine P)
    (fed' : Bytes) (index' : Nat) : Prop :=
  (img.size ≤ index * CHUNK ∧ e' = e ∧ fed' = fed ∧ index' = index) ∨
  (index * CHUNK < img.size ∧ ∃ e₁ bytes, Kept host e e₁
    ∧ bytes.length = chunkLen img.size index
    ∧ img.Shown P host (index * CHUNK) (chunkLen img.size index) bytes
    ∧ e' = { e₁ with hash := some (fed ++ bytes, index + 1, e.revision) }
    ∧ fed' = fed ++ bytes ∧ index' = index + 1)

/-- The image `accept` and `open` put in place: nothing written, nothing cached. -/
def fresh (source : String) (size : Nat) (disk : Crypto.Disk) : Image :=
  { source, size, disk, dirty := ∅, cache := Cache.new }

/-- **The ways a call returns.** -/
inductive Done (host : Host) (e : Engine P) : Call → Value → Engine P → Prop
  | openDisk {source : String} {total : Nat} {id : Identity P} {b : Bytes} {disk : Crypto.Disk}
      {size : Nat} (hid : e.identity = some id) (hi : e.image = none) (hb : e.build = none)
      (hlen : b.length = min total HEADER) (hread : host source 0 b)
      (hparse : parseHeader id b total = .ok (disk, size)) :
      Done host e (.openDisk source total) .unit
        { e with image := some (fresh source size disk), revision := e.revision + 1 }
  | beginCreate {source : String} {size : Nat} {e' : Engine P} (hi : e.image = none)
      (hb : e.Begun (some source) size e') : Done host e (.beginCreate source size) .unit e'
  | saveChanged {e₁ e' : Engine P} {img : Image} (hk : e.Kept host e₁) (hi : e₁.image = some img)
      (hd : img.Differs P host) (hb : e₁.Begun none img.size e') :
      Done host e .beginSave (.bool true) e'
  | saveUnchanged {e₁ : Engine P} {img : Image} (hid : e.identity.isSome) (hb : e.build = none)
      (hk : e.Kept host e₁) (hi : e₁.image = some img) (hp : img.Pristine P host) :
      Done host e .beginSave (.bool false) { e₁ with unchanged := some e₁.revision }
  | acceptUnchanged {img : Image} (hid : e.identity.isSome) (hu : e.unchanged = some e.revision)
      (hi : e.image = some img) :
      Done host e .acceptUnchanged .unit
        { e with image := some { img with dirty := ∅ }, unchanged := none }
  | nextEnd {b : Build} (hb : e.build = some b) (hr : b.revision = e.revision)
      (hend : b.size ≤ b.index * CHUNK) : Done host e .next (.maybe none) e
  | nextChunk {b : Build} {e₁ : Engine P} {bytes result : Bytes} {salt : Option (Block 32)}
      (hb : e.build = some b) (hr : b.revision = e.revision) (hlt : b.index * CHUNK < b.size)
      (hk : e.Kept host e₁) (hsrc : e.ChunkOf host b bytes)
      (hseal : b.disk.sealUnit P salt (unit b.index).val bytes = .ok result) :
      Done host e .next (.maybe (some result))
        { e₁ with build := some { b with index := b.index + 1 } }
  | accept {source : String} {total : Nat} {b : Build} (hid : e.identity.isSome)
      (hb : e.build = some b) (hr : b.revision = e.revision) (hend : b.index = chunkCount b.size)
      (htotal : fileSize b.size = .ok total) :
      Done host e (.accept source total) .unit
        { e with build := none, image := some (fresh source b.size b.disk)
                 revision := e.revision + 1, hash := none }
  | cancel : Done host e .cancel .unit e.cancelled
  | read {offset len : Nat} {img : Image} {out : Bytes} {e' : Engine P} (hk : e.Kept host e')
      (hi : e.image = some img) (hbound : offset + len ≤ img.size) (hlen : out.length = len)
      (hout : img.Shown P host offset len out) : Done host e (.read offset len) (.bytes out) e'
  | writeEmpty {offset : Nat} {img : Image} (hi : e.image = some img) (hbound : offset ≤ img.size) :
      Done host e (.write offset []) .unit e
  | write {offset : Nat} {bytes : Bytes} {img img₁ : Image} {dirty : Dirty} (hne : bytes ≠ [])
      (hi : e.image = some img) (hbound : offset + bytes.length ≤ img.size)
      (hk : Image.Kept P host img img₁) (hd : img.Spliced P host offset bytes dirty) :
      Done host e (.write offset bytes) .unit
        { e with image := some { img₁ with dirty }, revision := e.revision + 1 }
  | discard {img : Image} (hi : e.image = some img) :
      Done host e .discard .unit
        (cancelled { e with image := some { img with dirty := ∅ }, revision := e.revision + 1 })
  | clearCache :
      Done host e .clearCache .unit
        { e with image := e.image.map fun i => { i with cache := Cache.new } }
  | verifyStart {img : Image} (hi : e.image = some img) :
      Done host e .verifyStart .unit { e with hash := some ([], 0, e.revision) }
  | verifyMore {img : Image} {fed fed' : Bytes} {index index' : Nat} {e' : Engine P}
      (hi : e.image = some img) (hh : e.hash = some (fed, index, e.revision))
      (hf : e.Fed host img fed index e' fed' index') (hlt : index * CHUNK + CHUNK < img.size) :
      Done host e .verifyStep (.maybe none) e'
  | verifyEnd {img : Image} {fed fed' : Bytes} {index index' : Nat} {e' : Engine P}
      (hi : e.image = some img) (hh : e.hash = some (fed, index, e.revision))
      (hf : e.Fed host img fed index e' fed' index') (hend : img.size ≤ index * CHUNK + CHUNK) :
      Done host e .verifyStep (.maybe (some (P.sha256 fed'))) { e' with hash := none }

/-- **The ways a call stops.**  Only `verify_step` can stop after it has advanced. -/
inductive Stopped (host : Host) (e : Engine P) : Call → Engine P → Prop
  | kept {c : Call} {e' : Engine P} (hk : e.Kept host e') : Stopped host e c e'
  | fed {img : Image} {fed fed' : Bytes} {index index' : Nat} {e' : Engine P}
      (hi : e.image = some img) (hh : e.hash = some (fed, index, e.revision))
      (hf : e.Fed host img fed index e' fed' index') : Stopped host e .verifyStep e'

/-! ## §2. The invariant. -/

/-- The invariant of an engine.  A build, a running hash and an unchanged verdict each imply
    what the code takes for granted when it comes back to them. -/
structure WF (e : Engine P) (host : Host) : Prop where
  image : ∀ img, e.image = some img → img.WF P host
  build : ∀ b, e.build = some b → e.identity.isSome ∧ 0 < b.size ∧ b.size ≤ MAX_SIZE
    ∧ b.index ≤ chunkCount b.size ∧ b.revision ≤ e.revision
    ∧ (b.raw = none → ∃ img, e.image = some img ∧ img.size = b.size)
  hash : ∀ fed index revision, e.hash = some (fed, index, revision) →
    ∃ img, e.image = some img ∧ index ≤ chunkCount img.size
  unchanged : ∀ r, e.unchanged = some r →
    r ≤ e.revision ∧ ∃ img, e.image = some img ∧ (r = e.revision → img.Pristine P host)

/-- An engine keeps itself. -/
theorem Kept.refl {host : Host} {e : Engine P} (h : e.WF host) : e.Kept host e where
  same := rfl
  image := fun img hi => ⟨img, hi, Image.Like.refl _, h.image img hi⟩
  absent := id

/-- An image that is kept keeps the engine. -/
theorem Kept.of_image {host : Host} {e : Engine P} {img img' : Image} (hi : e.image = some img)
    (hk : Image.Kept P host img img') : e.Kept host { e with image := some img' } where
  same := rfl
  image := by
    intro i h
    rw [hi] at h
    injection h with h
    subst h
    exact ⟨img', rfl, hk⟩
  absent := by
    intro h
    rw [hi] at h
    cases h

/-! ## §3. Rules for the small parts. -/

section Rules

variable {Q : α → Engine P × Nat → Prop} {E : Stop → Engine P × Nat → Prop} {s : Engine P × Nat}

@[simp] theorem wp_self {Q : Engine P → Engine P × Nat → Prop} : wp self Q E s ↔ Q s.1 s := Iff.rfl

@[simp] theorem wp_update {Q : Unit → Engine P × Nat → Prop} (f : Engine P → Engine P) :
    wp (update f) Q E s ↔ Q () (f s.1, s.2) := Iff.rfl

/-- A call on the image, or the error of an engine that has none. -/
theorem wp_onImage {missing : Stop} {c : Async Image α}
    (hmissing : s.1.image = none → E missing s)
    (hrun : ∀ img, s.1.image = some img →
      wp c (fun a t => Q a ({ s.1 with image := some t.1 }, t.2))
        (fun st t => E st ({ s.1 with image := some t.1 }, t.2)) (img, s.2)) :
    wp (onImage missing c) Q E s := by
  unfold onImage
  rw [wp_bind, wp_self]
  cases hi : s.1.image with
  | none => exact hmissing hi
  | some img =>
    dsimp only
    rw [wp_zoom]
    exact hrun img hi

/-- The identity of the engine, or an error. -/
theorem wp_owner {Q : Identity P → Engine P × Nat → Prop}
    (hok : ∀ id, s.1.identity = some id → Q id s) (hstop : ∀ e, E (.error e) s) :
    wp owner Q E s := by
  unfold owner
  rw [wp_bind, wp_self]
  cases hid : s.1.identity with
  | none => exact hstop _
  | some id => exact hok id hid

/-- A draw of the host's random source. -/
theorem wp_draw {n : Nat} (io : Io) {Q : Option (Block n) → Engine P × Nat → Prop}
    (hok : ∀ r, Q r (s.1, s.2 + 1)) : wp (draw io n) Q E s := by
  unfold draw
  rw [wp_bind, wp_tick, wp_pure]
  exact hok _

/-- The description of the image. -/
theorem wp_describe {Q : Description → Engine P × Nat → Prop}
    (hok : ∀ img d, s.1.image = some img → d.size = img.size → Q d s)
    (hstop : ∀ e, E (.error e) s) : wp describe Q E s := by
  unfold describe
  rw [wp_bind, wp_self]
  cases hi : s.1.image with
  | none => exact hstop _
  | some img =>
    dsimp only
    rw [wp_bind]
    refine wp_ofCrypto (fun _ _ => ?_) (fun _ => hstop _)
    exact hok img _ hi rfl

end Rules

/-! ## §4. One lemma per call. -/

section Calls

variable {host : Host} {io : Io} {s : Engine P × Nat}

/-- The promise of `step_spec` for one call, as a `wp`. -/
def Meets (host : Host) (s : Engine P × Nat) (c : Call) (run : Async (Engine P) α)
    (value : α → Value) : Prop :=
  wp run (fun a s' => Done host s.1 c (value a) s'.1)
    (fun st s' => st.Clean ∧ Stopped host s.1 c s'.1) s

/-- A disk is made by an active identity, and is active. -/
theorem createDisk_ok {id : Identity P} {randomId : Option (Block 16)}
    {randomKey : Option (Block 32)} {disk : Crypto.Disk}
    (h : id.createDisk randomId randomKey = .ok disk) : id.active = true ∧ disk.active = true := by
  unfold Identity.createDisk at h
  obtain ⟨_, hcheck, h⟩ := ok_of_bind h
  have hact : id.active = true := by
    unfold Identity.check at hcheck
    split at hcheck
    · assumption
    · cases hcheck
  cases randomId with
  | none => cases h
  | some _ =>
    cases randomKey with
    | none => cases h
    | some _ =>
      injection h with h
      exact ⟨hact, by rw [← h]⟩

/-- `open_disk` meets its contract. -/
theorem meets_openDisk (hwf : s.1.WF host) (hio : io.Within host) (source : String) (total : Nat) :
    Meets host s (.openDisk source total) (openDisk io source total) fun _ => .unit := by
  have hkept : s.1.Kept host s.1 := Kept.refl hwf
  unfold Meets openDisk
  rw [wp_bind]
  refine wp_owner (fun _ _ => ?_) (fun _ => ⟨trivial, .kept hkept⟩)
  rw [wp_bind, wp_self, wp_bind]
  refine wp_require (fun hnone => ?_) (fun _ => ⟨trivial, .kept hkept⟩)
  rw [wp_bind]
  refine wp_exact hio (fun t b hlen hread => ?_) (fun t e he => ⟨he, .kept hkept⟩)
  rw [wp_bind]
  refine wp_owner (fun id hid => ?_) (fun _ => ⟨trivial, .kept hkept⟩)
  rw [wp_bind]
  refine wp_ofResult (fun r hr => ?_) (fun _ _ => ⟨trivial, .kept hkept⟩)
  dsimp only
  rw [wp_bind]
  refine wp_check io ?_ (fun _ => ⟨trivial, .kept hkept⟩)
  rw [wp_update]
  exact .openDisk hid (Option.isNone_iff_eq_none.mp hnone.1) (Option.isNone_iff_eq_none.mp hnone.2)
    hlen hread hr

/-- A creation or a save begins with nothing written. -/
theorem wp_begin {raw : Option String} {size : Nat} :
    wp (begin io raw size) (fun _ s' => s.1.Begun raw size s'.1)
      (fun st s' => st.Clean ∧ s'.1 = s.1) s := by
  unfold begin
  rw [wp_bind, wp_self, wp_bind]
  refine wp_require (fun hb => ?_) (fun _ => ⟨trivial, rfl⟩)
  rw [wp_bind]
  refine wp_owner (fun id hid => ?_) (fun _ => ⟨trivial, rfl⟩)
  rw [wp_bind]
  refine wp_draw io (fun randomId => ?_)
  rw [wp_bind]
  refine wp_draw io (fun randomKey => ?_)
  rw [wp_bind]
  refine wp_ofCrypto (fun disk hdisk => ?_) (fun _ => ⟨trivial, rfl⟩)
  rw [wp_bind]
  refine wp_draw io (fun salt => ?_)
  rw [wp_bind]
  refine wp_ofResult (fun header hheader => ?_) (fun _ _ => ⟨trivial, rfl⟩)
  rw [wp_update]
  obtain ⟨hact, hdact⟩ := createDisk_ok hdisk
  exact ⟨id, disk, salt, header, hid, hact, Option.isNone_iff_eq_none.mp hb, hdact, hheader, rfl⟩

/-- `begin_create` meets its contract. -/
theorem meets_beginCreate (hwf : s.1.WF host) (source : String) (size : Nat) :
    Meets host s (.beginCreate source size) (beginCreate io source size) fun _ => .unit := by
  have hkept : s.1.Kept host s.1 := Kept.refl hwf
  unfold Meets beginCreate
  rw [wp_bind]
  refine wp_owner (fun _ _ => ?_) (fun _ => ⟨trivial, .kept hkept⟩)
  rw [wp_bind, wp_self, wp_bind]
  refine wp_require (fun hnone => ?_) (fun _ => ⟨trivial, .kept hkept⟩)
  rw [wp_bind]
  refine wp_ofResult (fun _ _ => ?_) (fun _ _ => ⟨trivial, .kept hkept⟩)
  refine wp_mono wp_begin ?_ ?_
  · intro _ s' hb
    exact .beginCreate (Option.isNone_iff_eq_none.mp hnone.1) hb
  · intro st s' h
    exact ⟨h.1, .kept (h.2 ▸ hkept)⟩

/-- `begin_save` meets its contract. -/
theorem meets_beginSave (hwf : s.1.WF host) (hio : io.Within host) :
    Meets host s .beginSave (beginSave io) .bool := by
  have hkept : s.1.Kept host s.1 := Kept.refl hwf
  unfold Meets beginSave
  rw [wp_bind]
  refine wp_owner (fun id hid => ?_) (fun _ => ⟨trivial, .kept hkept⟩)
  rw [wp_bind, wp_self, wp_bind]
  refine wp_require (fun hnone => ?_) (fun _ => ⟨trivial, .kept hkept⟩)
  rw [wp_bind]
  refine wp_onImage (fun _ => ⟨trivial, .kept hkept⟩) (fun img hi => ?_)
  refine wp_mono (Image.wp_compareSectors hio (s := (img, s.2)) (hwf.image img hi)) ?_ ?_
  · rintro changed t ⟨hsame, hdiff, hk⟩
    have hk' := Kept.of_image hi hk
    rw [wp_bind]
    refine wp_check io ?_ (fun _ => ⟨trivial, .kept hk'⟩)
    cases changed with
    | false =>
      refine .saveUnchanged (by rw [hid]; rfl) (Option.isNone_iff_eq_none.mp hnone) hk' rfl ?_
      intro sec b hb
      have hb' : img.dirty[sec]? = some b := by rw [← hb, hk.1]
      obtain ⟨chunk, hchunk, hslice⟩ := hsame rfl sec b hb'
      exact ⟨chunk, (hk.1.authentic P).mpr hchunk, hslice⟩
    | true =>
      obtain ⟨sec, b, chunk, hb, hchunk, hne⟩ := hdiff rfl
      have hdiff' : t.1.Differs P host :=
        ⟨sec, b, chunk, by rw [← hb, hk.1], (hk.1.authentic P).mpr hchunk, hne⟩
      dsimp only
      rw [if_pos rfl, wp_bind]
      refine wp_onImage (fun _ => ⟨trivial, .kept hk'⟩) (fun img' hi' => ?_)
      injection hi' with hi'
      subst hi'
      simp only [Image.self, wp_bind, wp_get, wp_pure]
      refine wp_mono wp_begin ?_ ?_
      · intro _ s' hb
        exact .saveChanged hk' rfl hdiff' hb
      · intro st s' h
        exact ⟨h.1, .kept (h.2 ▸ hk')⟩
  · rintro st t ⟨hst, hk⟩
    exact ⟨hst, .kept (Kept.of_image hi hk)⟩

/-- `accept_unchanged` meets its contract. -/
theorem meets_acceptUnchanged (hwf : s.1.WF host) :
    Meets host s .acceptUnchanged (acceptUnchanged io) fun _ => .unit := by
  have hkept : s.1.Kept host s.1 := Kept.refl hwf
  unfold Meets acceptUnchanged
  rw [wp_bind]
  refine wp_owner (fun id hid => ?_) (fun _ => ⟨trivial, .kept hkept⟩)
  rw [wp_bind]
  refine wp_check io ?_ (fun _ => ⟨trivial, .kept hkept⟩)
  rw [wp_bind, wp_self, wp_bind]
  refine wp_require (fun hu => ?_) (fun _ => ⟨trivial, .kept hkept⟩)
  obtain ⟨-, img, hi, -⟩ := hwf.unchanged _ hu
  rw [wp_bind]
  refine wp_onImage (fun h => ?_) (fun img' hi' => ?_)
  · -- the `unwrap`: an unchanged verdict implies an open image
    rw [hi] at h
    cases h
  · rw [wp_modify, wp_update]
    exact .acceptUnchanged (by rw [hid]; rfl) hu hi'

/-- The plaintext of the next chunk; its `unwrap` is safe because a save has an image. -/
theorem wp_chunkSource (hwf : s.1.WF host) (hio : io.Within host) {b : Build}
    (hb : s.1.build = some b) :
    wp (chunkSource io b (b.index * CHUNK) (chunkLen b.size b.index))
      (fun bytes s' => s.1.ChunkOf host b bytes ∧ s.1.Kept host s'.1)
      (fun st s' => st.Clean ∧ s.1.Kept host s'.1) s := by
  have hkept : s.1.Kept host s.1 := Kept.refl hwf
  unfold chunkSource ChunkOf
  cases hraw : b.raw with
  | some source =>
    exact wp_exact hio (fun _ _ hlen hread => ⟨⟨hlen, hread⟩, hkept⟩) (fun _ _ he => ⟨he, hkept⟩)
  | none =>
    obtain ⟨img, hi, -⟩ := (hwf.build b hb).2.2.2.2.2 hraw
    refine wp_onImage (fun h => ?_) (fun img' hi' => ?_)
    · rw [hi] at h
      cases h
    · refine wp_mono (Image.wp_read hio (s := (img', s.2)) (hwf.image img' hi')) ?_ ?_
      · rintro bytes t ⟨-, hlen, hshown, hk⟩
        exact ⟨⟨hlen, img', hi', hshown⟩, Kept.of_image hi' hk⟩
      · rintro st t ⟨hst, hk⟩
        exact ⟨hst, Kept.of_image hi' hk⟩

/-- The offset of a chunk fits into 64 bits. -/
theorem chunk_offset_lt {size i : Nat} (hsize : size ≤ MAX_SIZE) (hi : i ≤ chunkCount size) :
    i * CHUNK < 2 ^ 64 := by
  have hmax : MAX_SIZE < 2 ^ 63 := by decide
  unfold chunkCount divCeil CHUNK at hi
  unfold CHUNK
  omega

/-- `next` meets its contract. -/
theorem meets_next (hwf : s.1.WF host) (hio : io.Within host) :
    Meets host s .next (next io) .maybe := by
  have hkept : s.1.Kept host s.1 := Kept.refl hwf
  unfold Meets next
  rw [wp_bind]
  refine wp_owner (fun _ _ => ?_) (fun _ => ⟨trivial, .kept hkept⟩)
  rw [wp_bind]
  refine wp_check io ?_ (fun _ => ⟨trivial, .kept hkept⟩)
  rw [wp_bind, wp_self]
  cases hb : s.1.build with
  | none => exact ⟨trivial, .kept hkept⟩
  | some b =>
    obtain ⟨-, -, hsize, hindex, -, -⟩ := hwf.build b hb
    dsimp only
    rw [wp_bind]
    refine wp_require (fun hr => ?_) (fun _ => ⟨trivial, .kept hkept⟩)
    rw [umul_eq (chunk_offset_lt hsize hindex), pure_bind, wp_ite]
    constructor
    · intro hend
      exact .nextEnd hb hr hend
    · intro hlt
      rw [usub_eq (by omega), pure_bind, wp_bind]
      refine wp_mono (wp_chunkSource (s := (s.1, s.2 + 1)) hwf hio hb) ?_
        (fun st s' h => ⟨h.1, .kept h.2⟩)
      rintro bytes s' ⟨hsrc, hk⟩
      have hb' : s'.1.build = some b := by rw [hk.same]; exact hb
      rw [wp_bind, wp_self, hb', unwrap_some, pure_bind, wp_bind]
      refine wp_draw io (fun salt => ?_)
      rw [wp_bind]
      refine wp_ofCrypto (fun result hseal => ?_) (fun _ => ⟨trivial, .kept hk⟩)
      rw [wp_bind]
      refine wp_check io ?_ (fun _ => ⟨trivial, .kept hk⟩)
      rw [wp_bind, wp_self, hb', unwrap_some, pure_bind, wp_bind, wp_update, wp_pure]
      exact .nextChunk hb hr (by omega) hk hsrc hseal

/-- `accept` meets its contract. -/
theorem meets_accept (hwf : s.1.WF host) (source : String) (total : Nat) :
    Meets host s (.accept source total) (accept io source total) fun _ => .unit := by
  have hkept : s.1.Kept host s.1 := Kept.refl hwf
  unfold Meets accept
  rw [wp_bind]
  refine wp_owner (fun id hid => ?_) (fun _ => ⟨trivial, .kept hkept⟩)
  rw [wp_bind]
  refine wp_check io ?_ (fun _ => ⟨trivial, .kept hkept⟩)
  rw [wp_bind, wp_self]
  cases hb : s.1.build with
  | none => exact ⟨trivial, .kept hkept⟩
  | some b =>
    dsimp only
    rw [wp_bind]
    refine wp_require (fun hr => ?_) (fun _ => ⟨trivial, .kept hkept⟩)
    rw [wp_bind]
    refine wp_ofResult (fun expected hexp => ?_) (fun _ _ => ⟨trivial, .kept hkept⟩)
    rw [wp_bind]
    refine wp_require (fun htotal => ?_) (fun _ => ⟨trivial, .kept hkept⟩)
    rw [wp_bind, wp_self, hb, unwrap_some, pure_bind, wp_update]
    exact .accept (by rw [hid]; rfl) hb hr.1 hr.2 (by rw [htotal]; exact hexp)

/-- `read` meets its contract. -/
theorem meets_read (hwf : s.1.WF host) (hio : io.Within host) (offset len : Nat) :
    Meets host s (.read offset len) (read io offset len) .bytes := by
  unfold Meets read
  refine wp_onImage (fun _ => ⟨trivial, .kept (Kept.refl hwf)⟩) (fun img hi => ?_)
  refine wp_mono (Image.wp_read hio (s := (img, s.2)) (hwf.image img hi)) ?_ ?_
  · rintro out t ⟨hbound, hlen, hshown, hk⟩
    exact .read (Kept.of_image hi hk) hi hbound hlen hshown
  · rintro st t ⟨hst, hk⟩
    exact ⟨hst, .kept (Kept.of_image hi hk)⟩

/-- `write` meets its contract. -/
theorem meets_write (hwf : s.1.WF host) (hio : io.Within host) (offset : Nat) (bytes : Bytes) :
    Meets host s (.write offset bytes) (write io offset bytes) fun _ => .unit := by
  unfold Meets write
  rw [wp_bind]
  refine wp_onImage (fun _ => ⟨trivial, .kept (Kept.refl hwf)⟩) (fun img hi => ?_)
  refine wp_mono (Image.wp_writeImage hio (s := (img, s.2)) (hwf.image img hi)) ?_ ?_
  · rintro wrote t ⟨hbound, ⟨rfl, rfl, ht⟩ | ⟨rfl, hne, img', dirty, hk, hd, ht⟩⟩
    · rw [ht]
      have hsame : { s.1 with image := some img } = s.1 := by rw [← hi]
      rw [hsame]
      exact .writeEmpty hi hbound
    · rw [ht]
      exact .write hne hi hbound hk hd
  · rintro st t ⟨hst, hk⟩
    exact ⟨hst, .kept (Kept.of_image hi hk)⟩

/-- `discard` meets its contract. -/
theorem meets_discard (hwf : s.1.WF host) : Meets host s .discard discard fun _ => .unit := by
  unfold Meets discard
  rw [wp_bind]
  refine wp_onImage (fun _ => ⟨trivial, .kept (Kept.refl hwf)⟩) (fun img hi => ?_)
  rw [wp_modify, wp_bind, wp_update]
  exact .discard hi

/-- `verify_start` meets its contract. -/
theorem meets_verifyStart (hwf : s.1.WF host) :
    Meets host s .verifyStart verifyStart fun _ => .unit := by
  unfold Meets verifyStart
  rw [wp_bind]
  refine wp_describe (fun img d hi _ => ?_) (fun _ => ⟨trivial, .kept (Kept.refl hwf)⟩)
  rw [wp_update]
  exact .verifyStart hi

/-- One chunk is hashed, or the hash has what lies below the next chunk already. -/
theorem wp_feed (hwf : s.1.WF host) (hio : io.Within host) {img : Image} {fed : Bytes} {index : Nat}
    (hi : s.1.image = some img) (hh : s.1.hash = some (fed, index, s.1.revision)) :
    wp (feed io (index * CHUNK) img.size)
      (fun _ s' => ∃ fed' index', s.1.Fed host img fed index s'.1 fed' index'
        ∧ s'.1.hash = some (fed', index', s.1.revision))
      (fun st s' => st.Clean ∧ s.1.Kept host s'.1) s := by
  unfold feed
  rw [wp_ite]
  constructor
  · intro hlt
    rw [usub_eq (by omega), pure_bind, wp_bind]
    refine wp_onImage (fun h => ?_) (fun img' hi' => ?_)
    · rw [hi] at h
      cases h
    · rw [hi] at hi'
      injection hi' with hi'
      subst hi'
      refine wp_mono (Image.wp_read hio (s := (img, s.2)) (hwf.image img hi)) ?_ ?_
      · rintro bytes t ⟨-, hlen, hshown, hk⟩
        rw [wp_bind, wp_self, hh, unwrap_some, pure_bind, wp_update]
        exact ⟨fed ++ bytes, index + 1,
          .inr ⟨hlt, _, bytes, Kept.of_image hi hk, hlen, hshown, rfl, rfl, rfl⟩, rfl⟩
      · rintro st t ⟨hst, hk⟩
        exact ⟨hst, Kept.of_image hi hk⟩
  · intro hge
    exact ⟨fed, index, .inl ⟨by omega, rfl, rfl, rfl⟩, hh⟩

/-- `verify_step` meets its contract. -/
theorem meets_verifyStep (hwf : s.1.WF host) (hio : io.Within host) :
    Meets host s .verifyStep (verifyStep io) .maybe := by
  have hkept : s.1.Kept host s.1 := Kept.refl hwf
  unfold Meets verifyStep
  rw [wp_bind]
  refine wp_check io ?_ (fun _ => ⟨trivial, .kept hkept⟩)
  rw [wp_bind, wp_self]
  cases hh : s.1.hash with
  | none => exact ⟨trivial, .kept hkept⟩
  | some h =>
    obtain ⟨fed, index, revision⟩ := h
    dsimp only
    rw [wp_bind]
    refine wp_require (fun hr => ?_) (fun _ => ⟨trivial, .kept hkept⟩)
    subst hr
    obtain ⟨img, hi, hindex⟩ := hwf.hash _ _ _ hh
    rw [umul_eq (chunk_offset_lt (hwf.image img hi).size_le hindex), pure_bind, wp_bind]
    refine wp_describe (fun img' d hi' hd => ?_) (fun _ => ⟨trivial, .kept hkept⟩)
    have himg : img' = img := by
      dsimp only at hi'
      rw [hi] at hi'
      exact (Option.some.inj hi').symm
    subst himg
    rw [hd, wp_bind]
    refine wp_mono (wp_feed (s := (s.1, s.2 + 1)) hwf hio hi hh) ?_
      (fun st s' h => ⟨h.1, .kept h.2⟩)
    rintro _ s' ⟨fed', index', hfed, hh'⟩
    rw [wp_ite]
    constructor
    · intro hend
      rw [wp_bind]
      refine wp_check io ?_ (fun _ => ⟨trivial, .fed hi hh hfed⟩)
      unfold finishHash
      simp only [wp_bind, wp_self]
      rw [hh', unwrap_some, wp_pure]
      simp only [wp_update, wp_pure]
      exact .verifyEnd hi hh hfed hend
    · intro hlt
      exact .verifyMore hi hh hfed (by omega)

/-- **Every call does one of the things listed**, and never panics or diverges. -/
theorem wp_run (hwf : s.1.WF host) (hio : io.Within host) (c : Call) :
    wp (c.run io) (fun v s' => Done host s.1 c v s'.1)
      (fun st s' => st.Clean ∧ Stopped host s.1 c s'.1) s := by
  cases c with
  | openDisk source total => exact (wp_map _ _).mpr (meets_openDisk hwf hio source total)
  | beginCreate source size => exact (wp_map _ _).mpr (meets_beginCreate hwf source size)
  | beginSave => exact (wp_map _ _).mpr (meets_beginSave hwf hio)
  | acceptUnchanged => exact (wp_map _ _).mpr (meets_acceptUnchanged hwf)
  | next => exact (wp_map _ _).mpr (meets_next hwf hio)
  | accept source total => exact (wp_map _ _).mpr (meets_accept hwf source total)
  | cancel => exact .cancel
  | read offset len => exact (wp_map _ _).mpr (meets_read hwf hio offset len)
  | write offset bytes => exact (wp_map _ _).mpr (meets_write hwf hio offset bytes)
  | discard => exact (wp_map _ _).mpr (meets_discard hwf)
  | clearCache => exact .clearCache
  | verifyStart => exact (wp_map _ _).mpr (meets_verifyStart hwf)
  | verifyStep => exact (wp_map _ _).mpr (meets_verifyStep hwf hio)

end Calls

/-- How a call ended. -/
def Outcome (host : Host) (e : Engine P) (c : Call) : Except Stop Value → Engine P → Prop
  | .ok v, e' => Done host e c v e'
  | .error st, e' => st.Clean ∧ Stopped host e c e'

/-- **One call of a well-formed engine** ends in an outcome of its contract. -/
theorem step_spec {host : Host} {e e' : Engine P} (hwf : e.WF host) {io : Io}
    (hio : io.Within host) {c : Call} {r : Except Stop Value} (h : e.step io c = (r, e')) :
    Outcome host e c r e' := by
  have hrun := wp_run (s := (e, 0)) hwf hio c
  unfold step at h
  cases hc : c.run io (e, 0) with
  | ok v s =>
    rw [hc] at h
    obtain ⟨rfl, rfl⟩ := Prod.mk.inj h
    have hdone := wp_of_ok hrun hc
    exact hdone
  | error st s =>
    rw [hc] at h
    obtain ⟨rfl, rfl⟩ := Prod.mk.inj h
    have hstopped := wp_of_error hrun hc
    exact hstopped

/-! ## §5. The invariant is kept. -/

section Invariant

variable {host : Host} {e e' : Engine P}

/-- Replacing the open image by one of the same size. -/
theorem WF.reimage (hwf : e.WF host) {img img' : Image} (hi : e.image = some img)
    (hw : img'.WF P host) (hsize : img'.size = img.size)
    (hp : img.Pristine P host → img'.Pristine P host) :
    WF { e with image := some img' } host where
  image := by
    intro i h
    obtain rfl : img' = i := Option.some.inj h
    exact hw
  build := by
    intro b hb
    obtain ⟨h1, h2, h3, h4, h5, h6⟩ := hwf.build b hb
    refine ⟨h1, h2, h3, h4, h5, ?_⟩
    intro hraw
    obtain ⟨i, hi', hs⟩ := h6 hraw
    rw [hi] at hi'
    obtain rfl : img = i := Option.some.inj hi'
    exact ⟨img', rfl, hsize.trans hs⟩
  hash := by
    intro fed index revision hh
    obtain ⟨i, hi', hindex⟩ := hwf.hash fed index revision hh
    rw [hi] at hi'
    obtain rfl : img = i := Option.some.inj hi'
    exact ⟨img', rfl, hsize ▸ hindex⟩
  unchanged := by
    intro r hr
    obtain ⟨hle, i, hi', hpi⟩ := hwf.unchanged r hr
    rw [hi] at hi'
    obtain rfl : img = i := Option.some.inj hi'
    exact ⟨hle, img', rfl, fun h => hp (hpi h)⟩

/-- A change of the content: whatever was concluded about the old one is out of date. -/
theorem WF.bump (hwf : e.WF host) {img img' : Image} (hi : e.image = some img)
    (hw : img'.WF P host) (hsize : img'.size = img.size) :
    WF { e with image := some img', revision := e.revision + 1 } host where
  image := by
    intro i h
    obtain rfl : img' = i := Option.some.inj h
    exact hw
  build := by
    intro b hb
    obtain ⟨h1, h2, h3, h4, h5, h6⟩ := hwf.build b hb
    refine ⟨h1, h2, h3, h4, Nat.le_succ_of_le h5, ?_⟩
    intro hraw
    obtain ⟨i, hi', hs⟩ := h6 hraw
    rw [hi] at hi'
    obtain rfl : img = i := Option.some.inj hi'
    exact ⟨img', rfl, hsize.trans hs⟩
  hash := by
    intro fed index revision hh
    obtain ⟨i, hi', hindex⟩ := hwf.hash fed index revision hh
    rw [hi] at hi'
    obtain rfl : img = i := Option.some.inj hi'
    exact ⟨img', rfl, hsize ▸ hindex⟩
  unchanged := by
    intro r hr
    obtain ⟨hle, -⟩ := hwf.unchanged r hr
    refine ⟨Nat.le_succ_of_le hle, img', rfl, ?_⟩
    -- a verdict of an older revision is never the current one
    intro h
    dsimp only at h
    omega

/-- A call that is dropped leaves a well-formed engine. -/
theorem WF.cancelled (hwf : e.WF host) : e.cancelled.WF host where
  image := hwf.image
  build := by
    intro b hb
    cases hb
  hash := by
    intro fed index revision hh
    cases hh
  unchanged := by
    intro r hr
    cases hr

/-- What keeps the engine keeps it well formed. -/
theorem Kept.wf (hk : e.Kept host e') (hwf : e.WF host) : e'.WF host := by
  have hsame := hk.same
  cases hi : e.image with
  | none =>
    have he : e' = e := by rw [hsame, hk.absent hi, ← hi]
    rw [he]
    exact hwf
  | some img =>
    obtain ⟨img', hi', hlike, hw⟩ := hk.image img hi
    rw [hsame, hi']
    exact hwf.reimage hi hw (by rw [hlike]) hlike.pristine

/-- A creation or a save that has begun leaves a well-formed engine. -/
theorem Begun.wf {raw : Option String} {size : Nat} (h : e.Begun raw size e') (hwf : e.WF host)
    (himg : raw = none → ∃ img, e.image = some img ∧ img.size = size) : e'.WF host := by
  obtain ⟨id, disk, salt, header, hid, -, -, -, hheader, rfl⟩ := h
  unfold makeHeader at hheader
  obtain ⟨total, htotal, -⟩ := ok_of_bind hheader
  obtain ⟨hpos, hle, -⟩ := fileSize_ok htotal
  refine ⟨hwf.image, ?_, hwf.hash, hwf.unchanged⟩
  intro b hb
  obtain rfl := Option.some.inj hb
  refine ⟨by dsimp only; rw [hid]; rfl, hpos, hle, Nat.zero_le _, Nat.le_refl _, himg⟩

/-- A chunk that was hashed leaves a well-formed engine. -/
theorem Fed.wf {img : Image} {fed fed' : Bytes} {index index' : Nat}
    (h : e.Fed host img fed index e' fed' index') (hi : e.image = some img) (hwf : e.WF host) :
    e'.WF host := by
  rcases h with ⟨-, rfl, -⟩ | ⟨hlt, e₁, bytes, hk, -, -, rfl, -, -⟩
  · exact hwf
  · have hw := hk.wf hwf
    obtain ⟨img₁, hi₁, hlike, -⟩ := hk.image img hi
    refine ⟨hw.image, hw.build, ?_, hw.unchanged⟩
    intro fed₁ index₁ revision₁ hh
    obtain ⟨-, rfl, -⟩ := Prod.mk.injEq .. ▸ Option.some.inj hh
    refine ⟨img₁, hi₁, ?_⟩
    rw [hlike]
    exact lt_chunkCount.mpr hlt

/-- A call that has succeeded leaves a well-formed engine. -/
theorem Done.wf {c : Call} {v : Value} (h : Done host e c v e') (hwf : e.WF host) :
    e'.WF host := by
  cases h with
  | @openDisk source total id b disk size hid hi hb hlen hread hparse =>
    obtain ⟨hpos, hle, -⟩ := fileSize_ok (headerSize_ok (parseHeader_ok hparse)).2
    refine ⟨?_, ?_, ?_, ?_⟩
    · intro img h
      obtain rfl := Option.some.inj h
      exact Image.WF.new hpos hle
    · intro b' hb'
      dsimp only at hb'
      rw [hb] at hb'
      cases hb'
    · intro fed index revision hh
      obtain ⟨img, himg, -⟩ := hwf.hash fed index revision hh
      rw [hi] at himg
      cases himg
    · intro r hr
      obtain ⟨-, img, himg, -⟩ := hwf.unchanged r hr
      rw [hi] at himg
      cases himg
  | beginCreate hi hb =>
    refine hb.wf hwf ?_
    intro hraw
    cases hraw
  | @saveChanged e₁ _ img hk hi hd hb => exact hb.wf (hk.wf hwf) fun _ => ⟨img, hi, rfl⟩
  | @saveUnchanged e₁ img hid hb hk hi hp =>
    have hw := hk.wf hwf
    refine ⟨hw.image, hw.build, hw.hash, ?_⟩
    intro r hr
    obtain rfl := Option.some.inj hr
    exact ⟨Nat.le_refl _, img, hi, fun _ => hp⟩
  | @acceptUnchanged img hid hu hi =>
    have hw : WF { e with image := some { img with dirty := ∅ } } host := by
      refine hwf.reimage hi ((hwf.image img hi).setDirty ?_) rfl ?_
      · intro s b h
        simp at h
      · intro _ s b h
        simp at h
    refine ⟨hw.image, hw.build, hw.hash, ?_⟩
    intro r hr
    cases hr
  | nextEnd hb hr hend => exact hwf
  | @nextChunk b e₁ bytes result salt hb hr hlt hk hsrc hseal =>
    have hw := hk.wf hwf
    have hb₁ : e₁.build = some b := by rw [hk.same]; exact hb
    refine ⟨hw.image, ?_, hw.hash, hw.unchanged⟩
    intro b' hb'
    obtain rfl := Option.some.inj hb'
    obtain ⟨h1, h2, h3, -, h5, h6⟩ := hw.build b hb₁
    exact ⟨h1, h2, h3, lt_chunkCount.mpr hlt, h5, h6⟩
  | @accept source total b hid hb hr hend htotal =>
    obtain ⟨hpos, hle, -⟩ := fileSize_ok htotal
    refine ⟨?_, ?_, ?_, ?_⟩
    · intro img h
      obtain rfl := Option.some.inj h
      exact Image.WF.new hpos hle
    · intro b' hb'
      cases hb'
    · intro fed index revision hh
      cases hh
    · intro r hr'
      obtain ⟨hle, -⟩ := hwf.unchanged r hr'
      refine ⟨Nat.le_succ_of_le hle, _, rfl, ?_⟩
      intro h
      dsimp only at h
      omega
  | cancel => exact hwf.cancelled
  | read hk hi hbound hlen hout => exact hk.wf hwf
  | writeEmpty hi hbound => exact hwf
  | @write offset bytes img img₁ dirty hne hi hbound hk hd =>
    obtain ⟨hlike, hw⟩ := hk
    have hsize : img₁.size = img.size := by rw [hlike]
    refine hwf.bump hi (hw.setDirty ?_) hsize
    rw [hsize]
    exact hd.wf (hwf.image img hi)
  | @discard img hi =>
    refine WF.cancelled (hwf.bump hi ((hwf.image img hi).setDirty ?_) rfl)
    intro s b h
    simp at h
  | clearCache =>
    cases hi : e.image with
    | none =>
      have he : ({ e with image := none } : Engine P) = e := by rw [← hi]
      rw [Option.map_none, he]
      exact hwf
    | some img =>
      refine hwf.reimage hi ((hwf.image img hi).setCache Cache.counted_new ?_) rfl id
      intro i b h
      rw [Cache.find_new] at h
      cases h
  | @verifyStart img hi =>
    refine ⟨hwf.image, hwf.build, ?_, hwf.unchanged⟩
    intro fed index revision hh
    obtain ⟨-, rfl, -⟩ := Prod.mk.injEq .. ▸ Option.some.inj hh
    exact ⟨img, hi, Nat.zero_le _⟩
  | verifyMore hi hh hf hlt => exact hf.wf hi hwf
  | verifyEnd hi hh hf hend =>
    have hw := hf.wf hi hwf
    refine ⟨hw.image, hw.build, ?_, hw.unchanged⟩
    intro fed index revision hh'
    cases hh'

/-- A call that has stopped leaves a well-formed engine. -/
theorem Stopped.wf {c : Call} (h : Stopped host e c e') (hwf : e.WF host) : e'.WF host := by
  cases h with
  | kept hk => exact hk.wf hwf
  | fed hi hh hf => exact hf.wf hi hwf

/-- **One call** leaves a well-formed engine. -/
theorem Outcome.wf {c : Call} {r : Except Stop Value} (h : Outcome host e c r e')
    (hwf : e.WF host) : e'.WF host := by
  cases r with
  | ok v => exact Done.wf h hwf
  | error st => exact Stopped.wf h.2 hwf

/-- **Every call keeps the invariant**, whether it returns or stops. -/
theorem wf_step (hwf : e.WF host) {io : Io} (hio : io.Within host) {c : Call}
    {r : Except Stop Value} (h : e.step io c = (r, e')) : e'.WF host :=
  (step_spec hwf hio h).wf hwf

end Invariant

end Engine

end My98.Disk
