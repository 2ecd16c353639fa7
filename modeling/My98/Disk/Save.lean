/-
  My98.Disk.Save — saving and creating write out what they read
  (`src/disk/src/lib.rs`: `begin_create`, `begin_save`, `next`, `accept`, `open`,
  `open_read_only`).

  A build hands out the file piece by piece: the header first, then one sealed record per
  `next`.  The pieces are handed out across MANY calls, some of which fail and are retried,
  while reads, verification and cache drops go on in between; what makes the assembled file
  one snapshot is the revision guard.

    • `Sealed`        — the records handed out so far, chunk by chunk;
    • `Building`      — the invariant of a build in progress;
    • `quiet_run`     — calls that do not change the content keep it, appending what `next` returns;
    • `Sealed.holds`  — the finished file decrypts to the snapshot;
    • `Stale`         — after a change of the content no `next` or `accept` of that build succeeds.
-/
import My98.Disk.Device

namespace My98.Disk

open My98.Lib My98.Crypto

variable {P : Primitives}

/-! ## §1. Sealed records. -/

variable (P) in
/-- `body` is the first `k` records of `target`, sealed for `disk` in order. -/
inductive Sealed (disk : Crypto.Disk) (size : Nat) (target : Bytes) : Nat → Bytes → Prop
  | nil : Sealed disk size target 0 []
  | snoc {k : Nat} {body record : Bytes} {salt : Option (Block 32)} (h : Sealed disk size target k body)
      (hlt : k * CHUNK < size)
      (hlen : (slice target (k * CHUNK) (chunkLen size k)).length = chunkLen size k)
      (hseal : disk.sealUnit P salt (unit k).val (slice target (k * CHUNK) (chunkLen size k))
        = .ok record) : Sealed disk size target (k + 1) (body ++ record)

section Sealed

variable {disk : Crypto.Disk} {size k : Nat} {target body : Bytes}

/-- The length of the sealed chunks. -/
theorem Sealed.length (hP : P.Sound) (h : Sealed P disk size target k body) :
    body.length = min (k * CHUNK) size + k * OVERHEAD := by
  induction h with
  | nil => rfl
  | @snoc k body record salt _ hlt hlen hseal ih =>
    have hrecord := (Crypto.Disk.openUnit_sealUnit hP hseal).2
    rw [List.length_append, ih, hrecord, hlen]
    simp only [chunkLen, OVERHEAD, CHUNK] at *
    omega

/-- A complete body covers the whole target. -/
theorem Sealed.le_length (h : Sealed P disk size target k body) :
    min (k * CHUNK) size ≤ target.length := by
  induction h with
  | nil => omega
  | @snoc k body record salt _ hlt hlen hseal ih =>
    rw [length_slice] at hlen
    rw [Nat.succ_mul]
    simp only [chunkLen] at hlen
    generalize k * CHUNK = start at *
    omega

/-- Record `j` of the body opens to chunk `j` of the target. -/
theorem Sealed.openUnit (hP : P.Sound) (h : Sealed P disk size target k body) :
    ∀ j, j < k → disk.openUnit P (unit j).val
        (slice body (j * (CHUNK + OVERHEAD)) (chunkLen size j + OVERHEAD))
      = .ok (slice target (j * CHUNK) (chunkLen size j)) := by
  induction h with
  | nil =>
    intro j hj
    omega
  | @snoc k body record salt hk hlt hlen hseal ih =>
    intro j hj
    obtain ⟨hopen, hrecord⟩ := Crypto.Disk.openUnit_sealUnit hP hseal
    rw [hlen] at hrecord
    have hbody := hk.length hP
    by_cases hjk : j = k
    · -- the last record: every record before it is a full one
      subst hjk
      have hstart : body.length = j * (CHUNK + OVERHEAD) := by
        rw [hbody, Nat.mul_add]
        omega
      rw [slice_append_right (by omega), hstart, Nat.sub_self, slice_self (by rw [hrecord]; rfl)]
      exact hopen
    · have hfit : j * (CHUNK + OVERHEAD) + (chunkLen size j + OVERHEAD) ≤ body.length := by
        rw [hbody]
        simp only [chunkLen, CHUNK, OVERHEAD] at *
        omega
      rw [slice_append_left hfit]
      exact ih j (by omega)

end Sealed

/-! ## §2. The finished file. -/

/-- The image yields exactly `target`: its records hold it and nothing is written over it. -/
structure Image.Yields (P : Primitives) (img : Image) (file : String → Bytes) (target : Bytes) :
    Prop where
  holds : img.Holds P file target
  content : img.content target = target

/-- A fresh image shows its target. -/
theorem fresh_content {source : String} {size : Nat} {disk : Crypto.Disk} {target : Bytes}
    (hlen : target.length = size) : (Engine.fresh source size disk).content target = target := by
  refine List.ext_getElem? fun p => ?_
  rw [Image.getElem?_content]
  show (if p < size then some (Image.overlay ∅ (fun p => target.getD p 0) p) else none) = _
  by_cases hp : p < size
  · rw [if_pos hp, Image.overlay_of_clean Std.TreeMap.getElem?_emptyc]
    simp [List.getElem?_eq_getElem (show p < target.length by omega)]
  · rw [if_neg hp, List.getElem?_eq_none (by omega)]

/-- **A header and all the records are a file that decrypts to the target.** -/
theorem Sealed.holds (hP : P.Sound) {disk : Crypto.Disk} {size : Nat} {target body header : Bytes}
    (h : Sealed P disk size target (chunkCount size) body) (hlen : target.length = size)
    (hheader : header.length = HEADER) {img : Image} (hsize : img.size = size)
    (hdisk : img.disk = disk) {file : String → Bytes} (hfile : file img.source = header ++ body) :
    img.Holds P file target where
  length_base := hlen.trans hsize.symm
  openUnit := by
    intro i hi
    rw [hsize] at hi ⊢
    rw [hdisk]
    have hrecord : img.record file i
        = slice body (i * (CHUNK + OVERHEAD)) (chunkLen size i + OVERHEAD) := by
      unfold Image.record recordOffset
      rw [hfile, slice_append_right (by omega), hheader, Nat.add_sub_cancel_left, hsize]
    rw [hrecord]
    exact h.openUnit hP i (lt_chunkCount.mpr hi)

/-- The file has the size that was computed. -/
theorem Sealed.fileSize (hP : P.Sound) {disk : Crypto.Disk} {size total : Nat}
    {target body header : Bytes} (h : Sealed P disk size target (chunkCount size) body)
    (hheader : header.length = HEADER) (htotal : fileSize size = .ok total) :
    total = (header ++ body).length := by
  obtain ⟨-, -, rfl⟩ := fileSize_ok htotal
  rw [List.length_append, h.length hP, hheader]
  unfold chunkCount divCeil CHUNK
  omega

/-! ## §3. A build in progress. -/

/-- What the next chunk of a build is read from shows `target`: the raw source of a create
    always, the open image of a save as long as its content is the target. -/
def Engine.Reads (e : Engine P) (file : String → Bytes) (target : Bytes) (b : Build) : Prop :=
  match b.raw with
  | some source => target = slice (file source) 0 b.size
  | none => ∃ base, e.Stores (stored file) base target

/-- The invariant of a build after `k` records. -/
structure Building (file : String → Bytes) (id : Identity P) (b : Build) (target : Bytes)
    (e : Engine P) (k : Nat) (body : Bytes) : Prop where
  wf : e.WF (stored file)
  identity : e.identity = some id
  build : e.build = some { b with index := k }
  revision : b.revision = e.revision
  reads : e.Reads file target b
  records : Sealed P b.disk b.size target k body

/-- The calls that neither change the content nor the build, and `next`. -/
def Call.quiet : Call → Bool
  | .next => true
  | .read _ _ => true
  | .clearCache => true
  | .verifyStart => true
  | .verifyStep => true
  | _ => false

/-- What a result contributes to the file. -/
def piece : Call × Except Stop Value → Bytes
  | (.next, .ok (.maybe (some record))) => record
  | _ => []

/-- The records the `next`s of a run returned, in order. -/
def nexts (results : List (Call × Except Stop Value)) : Bytes := results.flatMap piece

section Building

variable {file : String → Bytes} {id : Identity P} {b : Build} {target : Bytes} {e e' : Engine P}
  {k : Nat} {body : Bytes}

/-- An engine that kept its disk reads the same target. -/
theorem Engine.Kept.reads (hk : e.Kept (stored file) e') (h : e.Reads file target b) :
    e'.Reads file target b := by
  unfold Engine.Reads at h ⊢
  cases hraw : b.raw with
  | some source =>
    rw [hraw] at h
    exact h
  | none =>
    rw [hraw] at h
    obtain ⟨base, hs⟩ := h
    exact ⟨base, hk.stores hs⟩

/-- A build goes on in an engine that kept its disk. -/
theorem Building.kept (h : Building file id b target e k body) (hk : e.Kept (stored file) e') :
    Building file id b target e' k body where
  wf := hk.wf h.wf
  identity := by rw [hk.same]; exact h.identity
  build := by rw [hk.same]; exact h.build
  revision := by rw [hk.same]; exact h.revision
  reads := hk.reads h.reads
  records := h.records

/-- So it does after a stretch was fed to the digest. -/
theorem Building.fed {img : Image} {fed fed' : Bytes} {index index' : Nat}
    (h : Building file id b target e k body) (hi : e.image = some img)
    (hf : e.Fed (stored file) img fed index e' fed' index') :
    Building file id b target e' k body := by
  have hwf := hf.wf hi h.wf
  rcases hf with ⟨-, rfl, -⟩ | ⟨-, e₁, bytes, hk, -, -, rfl, -, -⟩
  · exact h
  · have h₁ := h.kept hk
    exact ⟨hwf, h₁.identity, h₁.build, h₁.revision, h₁.reads, h₁.records⟩

/-- The plaintext the next record is sealed from is the next chunk of the target. -/
theorem Building.chunk (h : Building file id b target e k body) {bytes : Bytes}
    (hlt : k * CHUNK < b.size)
    (hsrc : e.ChunkOf (stored file) { b with index := k } bytes) :
    bytes = slice target (k * CHUNK) (chunkLen b.size k) := by
  obtain ⟨hlen, hsrc⟩ := hsrc
  have hreads := h.reads
  unfold Engine.Reads at hreads
  dsimp only at hlen hsrc
  cases hraw : b.raw with
  | some source =>
    rw [hraw] at hreads hsrc
    dsimp only at hreads hsrc
    unfold stored at hsrc
    rw [hsrc, hlen, hreads, slice_slice (by simp only [chunkLen]; omega), Nat.zero_add]
  | none =>
    rw [hraw] at hreads hsrc
    dsimp only at hreads hsrc
    obtain ⟨img, hi, hshown⟩ := hsrc
    obtain ⟨base, img', hi', hover, hcontent⟩ := hreads
    rw [hi] at hi'
    obtain rfl := Option.some.inj hi'
    obtain ⟨img₂, hi₂, hsize⟩ := (h.wf.build _ h.build).2.2.2.2.2 hraw
    rw [hi] at hi₂
    obtain rfl := Option.some.inj hi₂
    dsimp only at hsize
    rw [hshown.eq_slice hover hlen (by rw [hsize]; simp only [chunkLen]; omega), hcontent]

/-- **One quiet call**: `next` appends the next record, everything else appends nothing. -/
theorem Building.step (h : Building file id b target e k body) {io : Io}
    (hio : io.Within (stored file)) {c : Call} (hq : c.quiet = true) {r : Except Stop Value}
    (hstep : e.step io c = (r, e')) :
    ∃ k', Building file id b target e' k' (body ++ piece (c, r)) := by
  have hout := Engine.step_spec h.wf hio hstep
  have hwf' := Engine.wf_step h.wf hio hstep
  cases r with
  -- A call that fails yields no piece, and the next `next` takes the same chunk again.
  | error st =>
    have hnil : piece (c, .error st) = [] := by cases c <;> rfl
    rw [hnil, List.append_nil]
    cases hout.2 with
    | kept hk => exact ⟨k, h.kept hk⟩
    | fed hi hh hf => exact ⟨k, h.fed hi hf⟩
  | ok v =>
    cases hout with
    | nextEnd =>
      refine ⟨k, ?_⟩
      show Building file id b target e k (body ++ [])
      rw [List.append_nil]
      exact h
    | @nextChunk b' e₁ bytes record salt hb hr hlt hk hsrc hseal =>
      have hb' : b' = { b with index := k } := by
        rw [h.build] at hb
        exact (Option.some.inj hb).symm
      subst hb'
      -- The chunk that was read is that of the target, so the record is the next one of the file.
      have hbytes := h.chunk hlt hsrc
      rw [hbytes] at hseal hsrc
      have h₁ := h.kept hk
      refine ⟨k + 1, hwf', h₁.identity, rfl, h₁.revision, ?_, ?_⟩
      · have hreads := h₁.reads
        unfold Engine.Reads at hreads ⊢
        exact hreads
      · exact h.records.snoc hlt hsrc.1 hseal
    | read hk =>
      refine ⟨k, ?_⟩
      show Building file id b target e' k (body ++ [])
      rw [List.append_nil]
      exact h.kept hk
    | clearCache =>
      refine ⟨k, hwf', h.identity, h.build, h.revision, ?_, by
        show Sealed P b.disk b.size target k (body ++ [])
        rw [List.append_nil]
        exact h.records⟩
      have hreads := h.reads
      unfold Engine.Reads at hreads ⊢
      cases hraw : b.raw with
      | some source =>
        rw [hraw] at hreads
        exact hreads
      | none =>
        rw [hraw] at hreads
        -- The target does not depend on the cache.
        obtain ⟨base, img, hi, hover, hcontent⟩ := hreads
        refine ⟨base, { img with cache := Cache.new }, ?_,
          ⟨hover.length_base, hover.authentic⟩, hcontent⟩
        show e.image.map _ = _
        rw [hi]
        rfl
    | verifyStart =>
      refine ⟨k, hwf', h.identity, h.build, h.revision, h.reads, ?_⟩
      show Sealed P b.disk b.size target k (body ++ [])
      rw [List.append_nil]
      exact h.records
    | verifyMore hi hh hf =>
      refine ⟨k, ?_⟩
      show Building file id b target e' k (body ++ [])
      rw [List.append_nil]
      exact h.fed hi hf
    | @verifyEnd img fed fed' index index' e₁ hi hh hf hend =>
      have h₁ := h.fed hi hf
      refine ⟨k, hwf', h₁.identity, h₁.build, h₁.revision, h₁.reads, ?_⟩
      show Sealed P b.disk b.size target k (body ++ [])
      rw [List.append_nil]
      exact h₁.records
    -- The other calls are not among those that a save allows.
    | openDisk => cases hq
    | beginCreate => cases hq
    | saveChanged => cases hq
    | saveUnchanged => cases hq
    | acceptUnchanged => cases hq
    | accept => cases hq
    | cancel => cases hq
    | writeEmpty => cases hq
    | write => cases hq
    | discard => cases hq

/-- **Quiet runs keep a build going**, by induction on the calls. -/
theorem quiet_run (calls : List (Io × Call)) (hio : ∀ x ∈ calls, x.1.Within (stored file))
    (hq : ∀ x ∈ calls, x.2.quiet = true) :
    ∀ (e : Engine P) (k : Nat) (body : Bytes), Building file id b target e k body →
      ∃ k', Building file id b target (e.run calls).2 k' (body ++ nexts (e.run calls).1) := by
  induction calls with
  | nil =>
    intro e k body h
    refine ⟨k, ?_⟩
    show Building file id b target e k (body ++ [])
    rw [List.append_nil]
    exact h
  | cons x rest ih =>
    intro e k body h
    obtain ⟨io, c⟩ := x
    cases hstep : e.step io c with
    | mk r e' =>
      obtain ⟨k', h'⟩ := h.step (hio (io, c) (by simp)) (hq (io, c) (by simp)) hstep
      obtain ⟨k'', h''⟩ :=
        ih (fun y hy => hio y (by simp [hy])) (fun y hy => hq y (by simp [hy])) e' k' _ h'
      refine ⟨k'', ?_⟩
      rw [Engine.run_cons hstep]
      show Building file id b target (e'.run rest).2 k'' (body ++ nexts ((c, r) :: (e'.run rest).1))
      rw [nexts, List.flatMap_cons, ← List.append_assoc]
      exact h''

/-- A build starts with no records, reading the target. -/
theorem Engine.Begun.building {raw : Option String} {size : Nat} (h : e.Begun raw size e')
    (hwf : e'.WF (stored file)) (hid : e.identity = some id)
    (hreads : ∀ b : Build, b.raw = raw → b.size = size → e.Reads file target b) :
    ∃ b salt, b.raw = raw ∧ b.size = size ∧ makeHeader id salt b.disk b.size = .ok b.header
      ∧ id.active = true ∧ Building file id b target e' 0 [] := by
  obtain ⟨id', disk, salt, header, hid', hact, -, -, hheader, rfl⟩ := h
  rw [hid] at hid'
  obtain rfl := Option.some.inj hid'
  refine ⟨{ disk, size, header, raw, index := 0, revision := e.revision }, salt, rfl, rfl, hheader,
    hact, hwf, hid, rfl, rfl, ?_, .nil⟩
  exact hreads _ rfl rfl

end Building

/-! ## §4. Opening the file. -/

/-- A host that never fails and never cancels. -/
structure Io.Perfect (io : Io) (file : String → Bytes) : Prop where
  cancelled : ∀ t, io.cancelled t = false
  read : ∀ t source offset length,
    io.read t source offset length = .bytes (slice (file source) offset length)

section Opening

variable {σ : Type} {io : Io} {file : String → Bytes}

/-- A perfect host serves the file. -/
theorem Io.Perfect.within (h : io.Perfect file) : io.Within (stored file) := by
  intro t source offset length b hread hlen
  rw [h.read] at hread
  injection hread with hread
  unfold stored
  rw [hlen, hread]

/-- It never cancels. -/
theorem Io.Perfect.wp_check (h : io.Perfect file) {Q : Unit → σ × Nat → Prop}
    {E : Stop → σ × Nat → Prop} {s : σ × Nat} (hok : Q () (s.1, s.2 + 1)) :
    wp (check io : Async σ Unit) Q E s := by
  unfold check
  rw [wp_bind, wp_tick]
  exact wp_require (fun _ => hok) (fun hn => absurd (h.cancelled _) hn)

/-- It hands out what is asked for. -/
theorem Io.Perfect.wp_exact (h : io.Perfect file) {Q : Bytes → σ × Nat → Prop}
    {E : Stop → σ × Nat → Prop} {s : σ × Nat} {source : String} {offset length : Nat}
    (hfit : offset + length ≤ (file source).length)
    (hok : ∀ t, Q (slice (file source) offset length) (s.1, t)) :
    wp (exact io source offset length : Async σ Bytes) Q E s := by
  have hlen := length_slice_of_le hfit
  unfold exact
  rw [wp_bind]
  apply h.wp_check
  rw [wp_bind]
  unfold awaitRead
  rw [wp_bind, wp_tick, h.read]
  show wp (pure (slice (file source) offset length)) _ _ _
  rw [wp_pure, wp_bind]
  apply h.wp_check
  rw [wp_bind]
  exact wp_require (fun _ => hok _) (fun hn => absurd hlen hn)

/-- With such a host, the first chunk of a freshly opened image that holds `target` is read. -/
theorem Io.Perfect.wp_original (h : io.Perfect file) {source : String} {size : Nat}
    {disk : Crypto.Disk} {target : Bytes} {t : Nat} (hpos : 0 < size)
    (hholds : (Engine.fresh source size disk).Holds P file target)
    (hfit : HEADER + (chunkLen size 0 + OVERHEAD) ≤ (file source).length) :
    wp (Image.original P io 0) (fun _ _ => True) (fun _ _ => False)
      (Engine.fresh source size disk, t) := by
  have hlen : (slice target (0 * CHUNK) (chunkLen size 0)).length = chunkLen size 0 := by
    have hbase : target.length = size := hholds.length_base
    rw [length_slice]
    simp only [chunkLen]
    omega
  have hopen : disk.openUnit P (unit 0).val
      (slice (file source) (HEADER + 0 * (CHUNK + OVERHEAD)) (chunkLen size 0 + OVERHEAD))
      = .ok (slice target (0 * CHUNK) (chunkLen size 0)) :=
    hholds.openUnit 0 (by rw [Nat.zero_mul]; exact hpos)
  unfold Image.original
  rw [wp_bind]
  apply h.wp_check
  simp only [Image.self, Image.setCache, wp_bind, wp_get, wp_pure, wp_modify]
  have hmiss : ((Engine.fresh source size disk).cache.get 0).1 = none := rfl
  rw [hmiss]
  dsimp only
  rw [wp_bind]
  refine wp_require (fun _ => ?_) (fun hn => absurd (by decide) hn)
  rw [wp_bind]
  refine wp_require (fun _ => ?_) (fun hn => absurd (by show 0 * CHUNK < size; omega) hn)
  rw [usub_eq (by show 0 * CHUNK ≤ size; omega), pure_bind, umul_eq (by decide), pure_bind, wp_bind]
  apply h.wp_exact (by show HEADER + 0 * (CHUNK + OVERHEAD) + _ ≤ _; rw [Nat.zero_mul]; exact hfit)
  intro t'
  rw [wp_bind]
  show wp (ofResult ((disk.openUnit P (unit 0).val
    (slice (file source) (HEADER + 0 * (CHUNK + OVERHEAD)) (chunkLen size 0 + OVERHEAD))).mapError _))
    _ _ _
  rw [hopen]
  show wp (require _ _ >>= _) _ _ _
  rw [wp_bind]
  refine wp_require (fun _ => ?_) (fun hn => absurd hlen hn)
  rw [wp_bind]
  obtain ⟨c', hput, -⟩ := Cache.put_spec (c := (Cache.new.get 0).2)
    (Cache.counted_get Cache.counted_new 0) 0 (b := slice target (0 * CHUNK) (chunkLen size 0))
    (by rw [hlen]; simp only [chunkLen, CHUNK, CACHE_LIMIT]; omega)
  unfold Image.cachePut
  simp only [Image.self, wp_bind, wp_get, wp_pure]
  have hfresh : (Engine.fresh source size disk).cache = Cache.new := rfl
  rw [hfresh, hput]
  trivial

/-- A call that cannot stop returns. -/
theorem Engine.step_of_wp {e : Engine P} {c : Call} {Q : Value → Engine P → Prop}
    (h : wp (c.run io) (fun v s' => Q v s'.1) (fun _ _ => False) (e, 0)) :
    ∃ v e', e.step io c = (.ok v, e') ∧ Q v e' := by
  unfold Engine.step
  cases hc : c.run io (e, 0) with
  | ok v s =>
    have hq := wp_of_ok h hc
    exact ⟨v, s.1, rfl, hq⟩
  | error st s =>
    have hfalse := wp_of_error h hc
    exact hfalse.elim

end Opening

variable (P) in
/-- A complete file: the header an open identity made, and all the records of the target. -/
structure Finished (id : Identity P) (disk : Crypto.Disk) (size : Nat) (target header body : Bytes) :
    Prop where
  active : id.active = true
  header : ∃ salt, makeHeader id salt disk size = .ok header
  length : target.length = size
  records : Sealed P disk size target (chunkCount size) body

section Finished

variable {id : Identity P} {disk : Crypto.Disk} {size : Nat} {target header body : Bytes}
  {file : String → Bytes} {source : String} {io : Io}

/-- A finished file has the size that was computed. -/
theorem Finished.fileSize (hP : P.Sound) (h : Finished P id disk size target header body) :
    fileSize size = .ok (header ++ body).length := by
  obtain ⟨salt, hheader⟩ := h.header
  obtain ⟨total, -, -, htotal, -⟩ := makeHeader_ok hP hheader
  rw [htotal, h.records.fileSize hP (length_makeHeader hP hheader) htotal]

/-- Opened again, it yields the target. -/
theorem Finished.yields (hP : P.Sound) (h : Finished P id disk size target header body)
    (hfile : file source = header ++ body) :
    (Engine.fresh source size disk).Yields P file target where
  holds := by
    obtain ⟨salt, hheader⟩ := h.header
    exact h.records.holds hP h.length (length_makeHeader hP hheader) rfl rfl hfile
  content := fresh_content h.length

/-- The header is what a reader of the file finds in front. -/
theorem Finished.head (hP : P.Sound) (h : Finished P id disk size target header body)
    (hfile : file source = header ++ body) :
    0 + min (header ++ body).length HEADER ≤ (file source).length
      ∧ slice (file source) 0 (min (header ++ body).length HEADER) = header := by
  obtain ⟨salt, hheader⟩ := h.header
  have hlen := length_makeHeader hP hheader
  have hmin : min (header ++ body).length HEADER = HEADER := by
    rw [List.length_append, hlen]
    omega
  rw [hmin, hfile]
  constructor
  · rw [List.length_append, hlen]
    omega
  · rw [slice_append_left (by omega), slice_self hlen]

/-- **The owner opens the finished file.** -/
theorem Finished.opens (hP : P.Sound) (h : Finished P id disk size target header body)
    (hfile : file source = header ++ body) (hio : io.Perfect file) {e : Engine P}
    (hid : e.identity = some id) (hi : e.image = none) (hb : e.build = none) :
    ∃ e', e.step io (.openDisk source (header ++ body).length) = (.ok .unit, e')
      ∧ e'.image = some (Engine.fresh source size disk) := by
  obtain ⟨salt, hheader⟩ := h.header
  obtain ⟨hfit, hhead⟩ := h.head hP hfile
  have hparse := parseHeader_makeHeader hP h.active hheader (h.fileSize hP)
  have hwp : wp ((Call.openDisk source (header ++ body).length).run io)
      (fun v s' => v = .unit ∧ s'.1.image = some (Engine.fresh source size disk))
      (fun _ _ => False) (e, 0) := by
    show wp ((fun _ => Value.unit) <$> Engine.openDisk io source (header ++ body).length) _ _ _
    rw [wp_map]
    unfold Engine.openDisk Engine.owner
    simp only [wp_bind, Engine.wp_self, hid, wp_pure]
    refine wp_require (fun _ => ?_) (fun hn => absurd (by simp [hi, hb]) hn)
    apply hio.wp_exact hfit
    intro t
    dsimp only
    rw [hhead, hid, wp_pure, hparse]
    show wp (check io) _ _ _
    apply hio.wp_check
    exact ⟨trivial, rfl⟩
  obtain ⟨v, e', hstep, rfl, himage⟩ := Engine.step_of_wp
    (Q := fun v e' => v = .unit ∧ e'.image = some (Engine.fresh source size disk)) hwp
  exact ⟨e', hstep, himage⟩

/-- **Whoever holds the read key opens the finished file.** -/
theorem Finished.opensReadOnly (hP : P.Sound) (h : Finished P id disk size target header body)
    (hfile : file source = header ++ body) (hio : io.Perfect file) {readKey : Bytes}
    (hkey : id.exportReadKey = .ok readKey) :
    ∃ e' img s, Engine.openReadOnly P io source (header ++ body).length readKey ((), 0) = .ok e' s
      ∧ e'.image = some img ∧ (Engine.fresh source size disk).Like img := by
  obtain ⟨salt, hheader⟩ := h.header
  obtain ⟨hfit, hhead⟩ := h.head hP hfile
  have htotal := h.fileSize hP
  obtain ⟨hpos, hle, hsum⟩ := fileSize_ok htotal
  obtain ⟨hsize, hdisk, hverify⟩ := makeHeader_fields hP hheader htotal
  have hyields := h.yields hP hfile
  have hfirst : HEADER + (chunkLen size 0 + OVERHEAD) ≤ (file source).length := by
    have hcount : 0 < chunkCount size := lt_chunkCount.mpr (by rw [Nat.zero_mul]; exact hpos)
    rw [hfile, hsum]
    simp only [chunkLen, OVERHEAD]
    omega
  have hwp : wp (Engine.openReadOnly P io source (header ++ body).length readKey)
      (fun e' _ => ∃ img, e'.image = some img ∧ (Engine.fresh source size disk).Like img)
      (fun _ _ => False) ((), 0) := by
    unfold Engine.openReadOnly
    rw [ReadCapability.fromBytes_exportReadKey hP hkey]
    show wp (exact io source 0 _ >>= _) _ _ _
    rw [wp_bind]
    apply hio.wp_exact hfit
    intro t
    rw [hhead, hsize]
    show wp (ofResult (verifyHeader P id.publicKey.val header) >>= _) _ _ _
    rw [hverify]
    show wp (ofResult ((openDescriptor P id.masterKey id.publicKey (slice header 24 110)).mapError _)
      >>= _) _ _ _
    rw [hdisk]
    show wp (runLocal (Engine.fresh source size disk) (Image.original P io 0) >>= _) _ _ _
    rw [wp_bind, wp_runLocal]
    -- the first record is read, and only the cache differs afterwards
    have hread := hio.wp_original (t := t) hpos hyields.holds hfirst
    apply wp_mono (wp_and hread (Image.wp_original hio.within (Image.WF.new hpos hle)))
    · intro b s' hpost
      dsimp only
      rw [wp_bind]
      apply hio.wp_check
      exact ⟨s'.1, rfl, hpost.2.2.1⟩
    · intro st s' hpost
      exact hpost.1
  cases hrun : Engine.openReadOnly P io source (header ++ body).length readKey ((), 0) with
  | ok e' s =>
    have hpost := wp_of_ok hwp hrun
    obtain ⟨img, himage, hlike⟩ := hpost
    exact ⟨e', img, s, rfl, himage, hlike⟩
  | error st s =>
    have hfalse := wp_of_error hwp hrun
    exact hfalse.elim

/-- So does every like image. -/
theorem Image.Yields.like {img img' : Image} (h : img.Yields P file target) (hl : img.Like img') :
    img'.Yields P file target := by
  rw [hl]
  exact ⟨⟨h.holds.length_base, h.holds.openUnit⟩, h.content⟩

/-- A build whose records are all handed out is a finished file. -/
theorem Building.finished {b : Build} {e : Engine P} {salt : Option (Block 32)}
    (h : Building file id b target e (chunkCount b.size) body) (hact : id.active = true)
    (hheader : makeHeader id salt b.disk b.size = .ok b.header) :
    Finished P id b.disk b.size target b.header body where
  active := hact
  header := ⟨salt, hheader⟩
  records := h.records
  length := by
    have hge := h.records.le_length
    have hall : b.size ≤ chunkCount b.size * CHUNK := by
      unfold chunkCount divCeil CHUNK
      omega
    have hle : target.length ≤ b.size := by
      have hreads := h.reads
      unfold Engine.Reads at hreads
      cases hraw : b.raw with
      | some source =>
        rw [hraw] at hreads
        rw [hreads, length_slice]
        omega
      | none =>
        rw [hraw] at hreads
        obtain ⟨base, img, hi, -, hcontent⟩ := hreads
        obtain ⟨img', hi', hsize⟩ := (h.wf.build _ h.build).2.2.2.2.2 hraw
        rw [hi] at hi'
        obtain rfl := Option.some.inj hi'
        rw [← hcontent, Image.length_content]
        exact Nat.le_of_eq hsize
    omega

end Finished

/-! ## §5. Stale builds. -/

/-- The calls after which the content is a new one: a write of at least one byte, a discard,
    an accept. -/
def Call.changesContent : Call → Bool
  | .write _ bytes => !bytes.isEmpty
  | .discard => true
  | .accept _ _ => true
  | _ => false

/-- A call that began a new build. -/
def began : Call × Except Stop Value → Bool
  | (.beginCreate _ _, .ok _) => true
  | (.beginSave, .ok (.bool true)) => true
  | _ => false

/-- A call that went on with a build, or ended it. -/
def continued : Call × Except Stop Value → Bool
  | (.next, .ok _) => true
  | (.accept _ _, .ok _) => true
  | _ => false

/-- The build in progress, if any, is of an older revision. -/
def Engine.Stale (e : Engine P) : Prop := ∀ b, e.build = some b → b.revision < e.revision

section Stale

variable {host : Host} {e e' : Engine P} {c : Call} {v : Value}

/-- An engine that kept its disk stays stale. -/
theorem Engine.Kept.stale (hk : e.Kept host e') (h : e.Stale) : e'.Stale := by
  unfold Engine.Stale at h ⊢
  rw [hk.same]
  exact h

/-- So does one that was fed. -/
theorem Engine.Fed.stale {img : Image} {fed fed' : Bytes} {index index' : Nat}
    (hf : e.Fed host img fed index e' fed' index') (h : e.Stale) : e'.Stale := by
  rcases hf with ⟨-, rfl, -⟩ | ⟨-, e₁, bytes, hk, -, -, rfl, -, -⟩
  · exact h
  · exact hk.stale h

/-- A change of the content makes the build in progress stale. -/
theorem Engine.Done.stale_of_change (h : Done host e c v e') (hwf : e.WF host)
    (hc : c.changesContent = true) : e'.Stale := by
  intro b hb
  cases h with
  | writeEmpty => cases hc
  | write =>
    have hle := (hwf.build b hb).2.2.2.2.1
    show b.revision < e.revision + 1
    omega
  | discard => cases hb
  | accept => cases hb
  | openDisk => cases hc
  | beginCreate => cases hc
  | saveChanged => cases hc
  | saveUnchanged => cases hc
  | acceptUnchanged => cases hc
  | nextEnd => cases hc
  | nextChunk => cases hc
  | cancel => cases hc
  | read => cases hc
  | clearCache => cases hc
  | verifyStart => cases hc
  | verifyMore => cases hc
  | verifyEnd => cases hc

/-- A stale build goes nowhere: `next` and `accept` do not return, and only a new build ends
    the staleness. -/
theorem Engine.Done.stale (h : Done host e c v e') (hs : e.Stale) (hb : began (c, .ok v) = false) :
    continued (c, .ok v) = false ∧ e'.Stale := by
  cases h with
  | openDisk hid hi hnone =>
    refine ⟨rfl, ?_⟩
    intro b hb'
    have hnil : e.build = some b := hb'
    rw [hnone] at hnil
    cases hnil
  | beginCreate => cases hb
  | saveChanged => cases hb
  | saveUnchanged _ _ hk => exact ⟨rfl, hk.stale hs⟩
  | acceptUnchanged => exact ⟨rfl, hs⟩
  | nextEnd hb' hr =>
    have hlt := hs _ hb'
    omega
  | nextChunk hb' hr =>
    have hlt := hs _ hb'
    omega
  | accept hid hb' hr =>
    have hlt := hs _ hb'
    omega
  | cancel =>
    refine ⟨rfl, ?_⟩
    intro b hb'
    cases hb'
  | read hk => exact ⟨rfl, hk.stale hs⟩
  | writeEmpty => exact ⟨rfl, hs⟩
  | write =>
    refine ⟨rfl, ?_⟩
    intro b hb'
    have hlt := hs b hb'
    show b.revision < e.revision + 1
    omega
  | discard =>
    refine ⟨rfl, ?_⟩
    intro b hb'
    cases hb'
  | clearCache => exact ⟨rfl, hs⟩
  | verifyStart => exact ⟨rfl, hs⟩
  | verifyMore hi hh hf => exact ⟨rfl, hf.stale hs⟩
  | verifyEnd hi hh hf => exact ⟨rfl, hf.stale hs⟩

/-- So does one whose call stopped. -/
theorem Engine.Stopped.stale (h : Stopped host e c e') (hs : e.Stale) : e'.Stale := by
  cases h with
  | kept hk => exact hk.stale hs
  | fed hi hh hf => exact hf.stale hs

end Stale

/-- **Once stale, stale until a new build begins**, by induction on the calls. -/
theorem stale_run {host : Host} (calls : List (Io × Call)) (hio : ∀ x ∈ calls, x.1.Within host) :
    ∀ e : Engine P, e.WF host → e.Stale → (∀ x ∈ (e.run calls).1, began x = false) →
      ∀ x ∈ (e.run calls).1, continued x = false := by
  induction calls with
  | nil =>
    intro e _ _ _ x hx
    cases hx
  | cons y rest ih =>
    intro e hwf hs hb
    obtain ⟨io, c⟩ := y
    cases hstep : e.step io c with
    | mk r e' =>
      have hio₀ : io.Within host := hio (io, c) (by simp)
      rw [Engine.run_cons hstep] at hb ⊢
      have hout := Engine.step_spec hwf hio₀ hstep
      have hone : continued (c, r) = false ∧ e'.Stale := by
        cases r with
        | ok v => exact Engine.Done.stale hout hs (hb _ (by simp))
        | error st => exact ⟨by cases c <;> rfl, hout.2.stale hs⟩
      intro x hx
      rcases List.mem_cons.mp hx with rfl | hx
      · exact hone.1
      · exact ih (fun z hz => hio z (by simp [hz])) e' (Engine.wf_step hwf hio₀ hstep) hone.2
          (fun z hz => hb z (by simp [hz])) x hx

/-! ## §6. The round trip. -/

variable (P) in
/-- The call `c` that returned `v` began writing out `target`. -/
inductive Begins (file : String → Bytes) (e : Engine P) : Call → Value → Bytes → Prop
  | create {source : String} {size : Nat} :
      Begins file e (.beginCreate source size) .unit (slice (file source) 0 size)
  | save {img : Image} {base : Bytes} (hi : e.image = some img) (hbase : img.Holds P file base) :
      Begins file e .beginSave (.bool true) (img.content base)

variable (P) in
/-- A build that was begun, kept going by quiet calls and accepted has written out a file of
    the right length, which its owner and every holder of the read key open to the target;
    the engine itself now has that file open, with an empty overlay. -/
def RoundTrips : Prop :=
  ∀ (file : String → Bytes) (e₀ e₁ e₂ : Engine P) (id : Identity P) (io₀ io₂ : Io) (c₀ : Call)
    (v₀ : Value) (target header : Bytes) (s : Engine P × Nat) (calls : List (Io × Call))
    (source : String) (total : Nat),
    Reachable (stored file) e₀ → e₀.identity = some id → io₀.Within (stored file) →
    e₀.step io₀ c₀ = (.ok v₀, e₁) → Begins P file e₀ c₀ v₀ target →
    Engine.header (e₁, 0) = .ok header s →
    (∀ x ∈ calls, x.1.Within (stored file) ∧ x.2.quiet = true) → io₂.Within (stored file) →
    (e₁.run calls).2.step io₂ (.accept source total) = (.ok .unit, e₂) →
    fileSize target.length = .ok (header ++ nexts (e₁.run calls).1).length
    ∧ (∀ file' source' io, file' source' = header ++ nexts (e₁.run calls).1 → io.Perfect file' →
        (∀ e : Engine P, e.identity = some id → e.image = none → e.build = none →
          ∃ e' img, e.step io (.openDisk source' (header ++ nexts (e₁.run calls).1).length)
              = (.ok .unit, e') ∧ e'.image = some img ∧ img.Yields P file' target)
        ∧ ∀ readKey, id.exportReadKey = .ok readKey →
          ∃ e' img s', Engine.openReadOnly P io source' (header ++ nexts (e₁.run calls).1).length
              readKey ((), 0) = .ok e' s' ∧ e'.image = some img ∧ img.Yields P file' target)
    ∧ ∃ img, e₂.image = some img ∧ img.dirty = ∅
        ∧ ∀ file', file' source = header ++ nexts (e₁.run calls).1 → img.Yields P file' target

variable (P) in
/-- After a call that `changes` selects has returned, no `next` or `accept` returns until a new
    build begins. -/
def Guards (changes : Call → Bool) : Prop :=
  ∀ (file : String → Bytes) (e e' : Engine P) (io : Io) (c : Call) (v : Value)
    (calls : List (Io × Call)), Reachable (stored file) e → io.Within (stored file) →
    changes c = true → e.step io c = (.ok v, e') → (∀ x ∈ calls, x.1.Within (stored file)) →
    (∀ x ∈ (e'.run calls).1, began x = false) → ∀ x ∈ (e'.run calls).1, continued x = false

/-- A stale engine answers no call that changes the content. -/
theorem guards_changes : Guards P Call.changesContent := by
  intro file e e' io c v calls hr hio hc hstep hcalls hb
  have hdone : Engine.Done (stored file) e c v e' := Engine.step_spec hr.wf hio hstep
  exact stale_run calls hcalls e' (hdone.wf hr.wf) (hdone.stale_of_change hr.wf hc) hb

/-- The header is the one of the build. -/
theorem header_ok {e : Engine P} {header : Bytes} {s : Engine P × Nat} {b : Build}
    (h : Engine.header (e, 0) = .ok header s) (hb : e.build = some b) : header = b.header := by
  have hwp : wp Engine.header (fun r _ => r = b.header) (fun _ _ => True) (e, 0) := by
    unfold Engine.header
    rw [wp_bind]
    apply Engine.wp_owner
    · intro id _
      rw [wp_bind, Engine.wp_self]
      dsimp only
      rw [hb]
      rfl
    · intro _
      trivial
  have hpost := wp_of_ok hwp h
  exact hpost

/-- Both ways to begin start a build that reads the target. -/
theorem Begins.building {file : String → Bytes} {e e' : Engine P} {id : Identity P} {io : Io}
    {c : Call} {v : Value} {target : Bytes} (h : Begins P file e c v target)
    (hwf : e.WF (stored file)) (hid : e.identity = some id) (hio : io.Within (stored file))
    (hstep : e.step io c = (.ok v, e')) :
    ∃ b salt, makeHeader id salt b.disk b.size = .ok b.header ∧ id.active = true
      ∧ Building file id b target e' 0 [] := by
  have hdone : Engine.Done (stored file) e c v e' := Engine.step_spec hwf hio hstep
  have hwf' := hdone.wf hwf
  cases h with
  | @create source size =>
    cases hdone with
    | beginCreate hi hb =>
      have hreads : ∀ b : Build, b.raw = some source → b.size = size →
          e.Reads file (slice (file source) 0 size) b := by
        intro b hraw hsize
        unfold Engine.Reads
        rw [hraw, hsize]
      obtain ⟨b, salt, -, -, hheader, hact, hbuild⟩ := hb.building hwf' hid hreads
      exact ⟨b, salt, hheader, hact, hbuild⟩
  | @save img base hi hbase =>
    cases hdone with
    | @saveChanged e₁ _ img₁ hk hi₁ hd hb =>
      have hid₁ : e₁.identity = some id := by rw [hk.same]; exact hid
      have hs : e₁.Stores (stored file) base (img.content base) :=
        hk.stores ⟨img, hi, hbase.over, rfl⟩
      have hreads : ∀ b : Build, b.raw = none → b.size = img₁.size →
          e₁.Reads file (img.content base) b := by
        intro b hraw _
        unfold Engine.Reads
        rw [hraw]
        exact ⟨base, hs⟩
      obtain ⟨b, salt, -, -, hheader, hact, hbuild⟩ := hb.building hwf' hid₁ hreads
      exact ⟨b, salt, hheader, hact, hbuild⟩

/-- **What is saved is opened again with the same content.** -/
theorem round_trips (hP : P.Sound) : RoundTrips P := by
  intro file e₀ e₁ e₂ id io₀ io₂ c₀ v₀ target header s calls source total hr hid hio₀ hstep₀ hbegins
    hheader hcalls hio₂ haccept
  obtain ⟨b, salt, hmake, hact, hbuild⟩ := hbegins.building hr.wf hid hio₀ hstep₀
  have hh := header_ok hheader hbuild.build
  dsimp only at hh
  obtain ⟨k, hrun⟩ := quiet_run calls (fun x hx => (hcalls x hx).1) (fun x hx => (hcalls x hx).2)
    e₁ 0 [] hbuild
  rw [List.nil_append] at hrun
  have hdone : Engine.Done (stored file) (e₁.run calls).2 (.accept source total) .unit e₂ :=
    Engine.step_spec hrun.wf hio₂ haccept
  cases hdone with
  | @accept _ _ b' hid' hb' hr' hend htotal =>
    -- the accepted build is the one that was begun, with every record handed out
    have hb : b' = { b with index := k } := by
      rw [hrun.build] at hb'
      exact (Option.some.inj hb').symm
    subst hb
    dsimp only at hend htotal
    subst hend
    have hfin : Finished P id b.disk b.size target b.header (nexts (e₁.run calls).1) :=
      hrun.finished hact hmake
    rw [hh]
    refine ⟨?_, ?_, ?_⟩
    · rw [hfin.length]
      exact hfin.fileSize hP
    · intro file' source' io hfile hio
      have hyields := hfin.yields hP hfile
      constructor
      · intro e hid hi hb
        obtain ⟨e', hstep, himage⟩ := hfin.opens hP hfile hio hid hi hb
        exact ⟨e', _, hstep, himage, hyields⟩
      · intro readKey hkey
        obtain ⟨e', img, s', hopen, himage, hlike⟩ := hfin.opensReadOnly hP hfile hio hkey
        exact ⟨e', img, s', hopen, himage, hyields.like hlike⟩
    · exact ⟨_, rfl, rfl, fun file' hfile => hfin.yields hP hfile⟩

/-- **Saving and creating round-trip, and no mixed snapshot is ever accepted.** -/
theorem save_round_trip (hP : P.Sound) : RoundTrips P ∧ Guards P Call.changesContent :=
  ⟨round_trips hP, guards_changes⟩

/-! The same five bytes, created from a raw source. -/

def demoFiles (source : String) : Bytes := if source = "raw" then demoBase else demoFile source

def demoHost : Io := demoIo demoFiles false

def demoOwner : Engine plain where
  identity := some { signingSeed := zeros 32, relaySeed := zeros 32, masterKey := zeros 32,
                     publicKey := zeros 32, active := true, derived := fun _ => rfl }
  image := none
  build := none
  revision := 0
  hash := none
  unchanged := none

set_option maxRecDepth 20000 in
/-- The owner of the demo. -/
theorem demoOwner_new : Engine.new plain "u" [1] "m" = .ok demoOwner := rfl

/-- The host of the demo serves its files. -/
theorem demoHost_within : demoHost.Within (stored demoFiles) := demoIo_within demoFiles false

/-- The engine with the create begun. -/
def demoCreating : Engine plain := (demoOwner.step demoHost (.beginCreate "raw" 5)).2

set_option maxRecDepth 20000 in
/-- Its header is the first part of the file. -/
theorem demoCreating_header :
    Engine.header (demoCreating, 0) = .ok (slice (demoFile "disk") 0 198) (demoCreating, 0) := rfl

/-- A read that fails, the record, and the end. -/
def demoQuiet : List (Io × Call) := [(demoHost, .read 0 1), (demoHost, .next), (demoHost, .next)]

/-- The engine after the accept. -/
def demoCreated : Engine plain := ((demoCreating.run demoQuiet).2.step demoHost (.accept "disk" 265)).2

/-- A disk that was created and opened again shows the source. -/
theorem demoCreated_round_trip :
    ∃ img, demoCreated.image = some img ∧ img.dirty = ∅ ∧ img.Yields plain demoFiles demoBase := by
  have hquiet : ∀ x ∈ demoQuiet, x.1.Within (stored demoFiles) ∧ x.2.quiet = true := by
    intro x hx
    simp only [demoQuiet, List.mem_cons, List.not_mem_nil, or_false] at hx
    rcases hx with rfl | rfl | rfl <;> exact ⟨demoHost_within, rfl⟩
  have hbegin : demoOwner.step demoHost (.beginCreate "raw" 5) = (.ok .unit, demoCreating) :=
    Engine.step_eq (by decide +kernel)
  have haccept : (demoCreating.run demoQuiet).2.step demoHost (.accept "disk" 265)
      = (.ok .unit, demoCreated) := Engine.step_eq (by decide +kernel)
  obtain ⟨img, himage, hdirty, hyields⟩ := ((save_round_trip plain_sound).1 demoFiles demoOwner
    demoCreating demoCreated _ demoHost demoHost _ _ _ _ _ demoQuiet "disk" 265 (.new demoOwner_new)
    rfl demoHost_within hbegin .create demoCreating_header hquiet demoHost_within haccept).2.2
  exact ⟨img, himage, hdirty, hyields demoFiles (by decide +kernel)⟩

/-- Every write, also an empty one, a discard, an accept. -/
def Call.modifies : Call → Bool
  | .write _ _ => true
  | .discard => true
  | .accept _ _ => true
  | _ => false

/-- Up to the beginning of a save. -/
def demoSave : List (Io × Call) :=
  [(demoHost, .beginCreate "raw" 5), (demoHost, .next), (demoHost, .accept "disk" 265),
   (demoHost, .write 0 [9]), (demoHost, .beginSave)]

/-- A write of no bytes returns and does not end the save: the next record is still handed
    out. -/
theorem empty_write_keeps_build :
    ((demoOwner.run (demoSave ++ [(demoHost, .write 0 []), (demoHost, .next)])).1.map fun x =>
        (began x, continued x))
      = [(true, false), (false, true), (false, true), (false, false), (true, false),
         (false, false), (false, true)]
    ∧ ¬ Guards plain Call.modifies := by
  refine ⟨by decide +kernel, ?_⟩
  intro hguards
  have hio : ∀ x ∈ demoSave, x.1.Within (stored demoFiles) := by
    intro x hx
    simp only [demoSave, List.mem_cons, List.not_mem_nil, or_false] at hx
    rcases hx with rfl | rfl | rfl | rfl | rfl <;> exact demoHost_within
  have hnext : ∀ x ∈ [(demoHost, Call.next)], x.1.Within (stored demoFiles) := by
    intro x hx
    rw [List.mem_singleton] at hx
    rw [hx]
    exact demoHost_within
  have hstep : (demoOwner.run demoSave).2.step demoHost (.write 0 [])
      = (.ok .unit, ((demoOwner.run demoSave).2.step demoHost (.write 0 [])).2) :=
    Engine.step_eq (by decide +kernel)
  have hfalse := hguards demoFiles _ _ demoHost (.write 0 []) .unit [(demoHost, .next)]
    (Reachable.run demoSave hio demoOwner (.new demoOwner_new)) demoHost_within rfl hstep hnext
    (by decide +kernel)
  revert hfalse
  decide +kernel

end My98.Disk
