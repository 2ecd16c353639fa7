/-
  My98.Disk.Device — an open engine is a flat block device.

  `Device` is the abstract model: one byte array, a read returns a range of it, a write
  splices it, a discard resets it to the base, and NOTHING else changes it, least of all a
  call that stops.  `step_refines` says that one engine call is one step of that device, and
  `run_refines` that every run is, for every interleaving of calls and every pattern of host
  failures, short reads, cancellations and dropped futures.

  `Reachable` collects the engines such a run can start from: everything the constructors,
  `fork_state` and the calls themselves can produce.
-/
import My98.Crypto.Plain
import My98.Disk.Steps

namespace My98.Disk

open My98.Lib My98.Crypto

variable {P : Primitives}

/-! ## §1. The abstract device. -/

namespace Device

/-- The content after a call on a device with base `base` ended with `r`. -/
def after (base content : Bytes) : Call → Except Stop Value → Bytes
  | .write offset bytes, .ok _ => splice content offset bytes
  | .discard, .ok _ => base
  | _, _ => content

/-- The answers the device may give: in bounds and exact, or a clean stop. -/
def Answers (content : Bytes) : Call → Except Stop Value → Prop
  | _, .error st => st.Clean
  | .read offset len, .ok v =>
      offset + len ≤ content.length ∧ v = .bytes (slice content offset len)
  | .write offset bytes, .ok _ => offset + bytes.length ≤ content.length
  | _, .ok _ => True

/-- A run of the device: the calls with their results lead from `content` to `content'`. -/
def Runs (base content content' : Bytes) : List (Call × Except Stop Value) → Prop
  | [] => content' = content
  | (c, r) :: rest => Answers content c r ∧ Runs base (after base content c r) content' rest

end Device

/-- `accept` replaces the open image by the one that was built; every other call works on the
    image it finds. -/
def Call.replacesImage : Call → Bool
  | .accept _ _ => true
  | _ => false

/-! ## §2. One call is one step of the device. -/

section Refinement

variable {host : Host} {e e' : Engine P} {base : Bytes}

/-- The engine `e'` has the image `e` had, with content `content`. -/
def Engine.Stores (e : Engine P) (host : Host) (base content : Bytes) : Prop :=
  ∃ img, e.image = some img ∧ img.Over P host base ∧ img.content base = content

/-- An engine that kept its disk stores the same content. -/
theorem Engine.Kept.stores {content : Bytes} (hk : e.Kept host e') (h : e.Stores host base content) :
    e'.Stores host base content := by
  obtain ⟨img, hi, ho, hc⟩ := h
  obtain ⟨img', hi', hlike, -⟩ := hk.image img hi
  exact ⟨img', hi', hlike.over P ho, (hlike.content base).trans hc⟩

/-- An empty overlay shows the base. -/
theorem Image.content_empty {img : Image} (ho : img.Over P host base) :
    ({ img with dirty := ∅ } : Image).content base = base := by
  refine List.ext_getElem? fun p => ?_
  rw [Image.getElem?_content]
  have hlen := ho.length_base
  dsimp only
  by_cases hp : p < img.size
  · rw [if_pos hp, Image.overlay_of_clean Std.TreeMap.getElem?_emptyc]
    simp [List.getElem?_eq_getElem (show p < base.length by omega)]
  · rw [if_neg hp, List.getElem?_eq_none (by omega)]

/-- So does one that was fed. -/
theorem Engine.Fed.stores {content : Bytes} {img : Image} {fed fed' : Bytes} {index index' : Nat}
    (h : e.Fed host img fed index e' fed' index') (hs : e.Stores host base content) :
    e'.Stores host base content := by
  rcases h with ⟨-, rfl, -⟩ | ⟨-, e₁, bytes, hk, -, -, rfl, -, -⟩
  · exact hs
  · exact hk.stores hs

/-- So does one whose build began. -/
theorem Engine.Begun.stores {content : Bytes} {raw : Option String} {size : Nat}
    (h : e.Begun raw size e') (hs : e.Stores host base content) : e'.Stores host base content := by
  obtain ⟨id, disk, salt, header, -, -, -, -, -, rfl⟩ := h
  exact hs

/-- **A call that returns is one step of the device.** -/
theorem Engine.Done.refines {c : Call} {v : Value} {content : Bytes}
    (h : Done host e c v e') (hwf : e.WF host) (hs : e.Stores host base content)
    (hc : c.replacesImage = false) :
    Device.Answers content c (.ok v) ∧ e'.Stores host base (Device.after base content c (.ok v)) := by
  obtain ⟨img, hi, ho, hcontent⟩ := id hs
  have hlen : content.length = img.size := by rw [← hcontent, Image.length_content]
  -- the image found by a constructor of `Done` is the image stored
  have hthe : ∀ img', e.image = some img' → img' = img := by
    intro img' hi'
    rw [hi] at hi'
    exact (Option.some.inj hi').symm
  cases h with
  | openDisk _ hnone =>
    rw [hi] at hnone
    cases hnone
  | beginCreate hnone =>
    rw [hi] at hnone
    cases hnone
  | saveChanged hk _ _ hb => exact ⟨trivial, hb.stores (hk.stores hs)⟩
  | saveUnchanged _ _ hk => exact ⟨trivial, hk.stores hs⟩
  | @acceptUnchanged img' hid hu hi' =>
    obtain rfl := hthe img' hi'
    -- the overlay is dropped, and it showed nothing but the base
    obtain ⟨-, img₂, hi₂, hp⟩ := hwf.unchanged _ hu
    obtain rfl := hthe img₂ hi₂
    refine ⟨trivial, _, rfl, ⟨ho.length_base, ho.authentic⟩, ?_⟩
    rw [Image.content_empty ho, ← hcontent]
    exact ((hp rfl).content ho (hwf.image _ hi)).symm
  | nextEnd => exact ⟨trivial, hs⟩
  | nextChunk hb hr hlt hk => exact ⟨trivial, hk.stores hs⟩
  | accept => cases hc
  | cancel => exact ⟨trivial, hs⟩
  | @read offset len img' out _ hk hi' hbound hlen' hout =>
    obtain rfl := hthe img' hi'
    refine ⟨⟨by omega, ?_⟩, hk.stores hs⟩
    rw [hout.eq_slice ho hlen' hbound, hcontent]
  | @writeEmpty offset img' hi' hbound =>
    obtain rfl := hthe img' hi'
    refine ⟨by show offset + 0 ≤ _; omega, ?_⟩
    show e.Stores host base (splice content offset [])
    rw [splice_nil]
    exact hs
  | @write offset bytes img' img₁ dirty hne hi' hbound hk hd =>
    obtain rfl := hthe img' hi'
    refine ⟨by show offset + bytes.length ≤ _; omega, _, rfl, ?_, ?_⟩
    · have ho₁ := hk.1.over P ho
      exact ⟨ho₁.length_base, ho₁.authentic⟩
    · show ({ img₁ with dirty } : Image).content base = splice content offset bytes
      have hsame : ({ img₁ with dirty } : Image).content base
          = ({ img' with dirty } : Image).content base := by
        rw [hk.1]
        rfl
      rw [hsame, hd.content ho hbound, hcontent]
  | @discard img' hi' =>
    obtain rfl := hthe img' hi'
    exact ⟨trivial, _, rfl, ⟨ho.length_base, ho.authentic⟩, Image.content_empty ho⟩
  | clearCache =>
    refine ⟨trivial, { img with cache := Cache.new }, ?_, ⟨ho.length_base, ho.authentic⟩, hcontent⟩
    show e.image.map _ = _
    rw [hi]
    rfl
  | verifyStart => exact ⟨trivial, hs⟩
  | verifyMore hi' hh hf => exact ⟨trivial, hf.stores hs⟩
  | verifyEnd hi' hh hf => exact ⟨trivial, hf.stores hs⟩

/-- A call that stops leaves the content alone. -/
theorem Engine.Stopped.stores {c : Call} {content : Bytes} (h : Stopped host e c e')
    (hs : e.Stores host base content) : e'.Stores host base content := by
  cases h with
  | kept hk => exact hk.stores hs
  | fed hi hh hf => exact hf.stores hs

/-- A call that fails leaves the content of the device. -/
theorem Device.after_error {content : Bytes} {c : Call} {st : Stop} :
    Device.after base content c (.error st) = content := by
  cases c <;> rfl

/-- The device allows every clean failure. -/
theorem Device.answers_error {content : Bytes} {c : Call} {st : Stop} :
    Device.Answers content c (.error st) ↔ st.Clean := by
  cases c <;> exact Iff.rfl

/-- **One call of the engine is one call of the device.** -/
theorem step_refines {content : Bytes} (hwf : e.WF host) (hs : e.Stores host base content)
    {io : Io} (hio : io.Within host) {c : Call} (hc : c.replacesImage = false)
    {r : Except Stop Value} (h : e.step io c = (r, e')) :
    Device.Answers content c r ∧ e'.Stores host base (Device.after base content c r) := by
  have hout := Engine.step_spec hwf hio h
  cases r with
  | ok v => exact Engine.Done.refines hout hwf hs hc
  | error st =>
    rw [Device.after_error, Device.answers_error]
    exact ⟨hout.1, hout.2.stores hs⟩

end Refinement

/-! ## §3. Runs. -/

/-- Make the calls in order, each with its own host; the results, and the engine left. -/
def Engine.run (e : Engine P) : List (Io × Call) → List (Call × Except Stop Value) × Engine P
  | [] => ([], e)
  | (io, c) :: rest =>
    let (r, e') := e.step io c
    let (rs, e'') := e'.run rest
    ((c, r) :: rs, e'')

/-- A run by its first call. -/
theorem Engine.run_cons {e e' : Engine P} {io : Io} {c : Call} {r : Except Stop Value}
    (h : e.step io c = (r, e')) (rest : List (Io × Call)) :
    e.run ((io, c) :: rest) = ((c, r) :: (e'.run rest).1, (e'.run rest).2) := by
  show (let (r, e') := e.step io c
    let (rs, e'') := e'.run rest
    ((c, r) :: rs, e'')) = _
  rw [h]

/-- A call by its result and its state. -/
theorem Engine.step_eq {e : Engine P} {io : Io} {c : Call} {r : Except Stop Value}
    (h : (e.step io c).1 = r) : e.step io c = (r, (e.step io c).2) :=
  Prod.ext h rfl

/-- **Every run is a run of the device.** -/
theorem run_refines {host : Host} {base : Bytes} (calls : List (Io × Call))
    (hio : ∀ x ∈ calls, x.1.Within host) (hc : ∀ x ∈ calls, x.2.replacesImage = false) :
    ∀ (e : Engine P) (content : Bytes), e.WF host → e.Stores host base content →
      ∃ content', Device.Runs base content content' (e.run calls).1
        ∧ (e.run calls).2.WF host ∧ (e.run calls).2.Stores host base content' := by
  induction calls with
  | nil =>
    intro e content hwf hs
    exact ⟨content, rfl, hwf, hs⟩
  | cons x rest ih =>
    intro e content hwf hs
    obtain ⟨io, c⟩ := x
    cases hstep : e.step io c with
    | mk r e' =>
      have hio₀ : io.Within host := hio (io, c) (by simp)
      obtain ⟨hans, hs'⟩ := step_refines hwf hs hio₀ (hc (io, c) (by simp)) hstep
      obtain ⟨content', hruns, hwf'', hs''⟩ :=
        ih (fun y hy => hio y (by simp [hy])) (fun y hy => hc y (by simp [hy])) e' _
          (Engine.wf_step hwf hio₀ hstep) hs'
      refine ⟨content', ?_⟩
      rw [Engine.run_cons hstep]
      exact ⟨⟨hans, hruns⟩, hwf'', hs''⟩

/-! ## §4. Reachable engines. -/

/-- The engines that hosts within `host` can produce. -/
inductive Reachable (host : Host) : Engine P → Prop
  | new {username machine : String} {password : Bytes} {e : Engine P}
      (h : Engine.new P username password machine = .ok e) : Reachable host e
  | openReadOnly {io : Io} (hio : io.Within host) {source : String} {total t : Nat}
      {readKey : Bytes} {e : Engine P} {s : Unit × Nat}
      (h : Engine.openReadOnly P io source total readKey ((), t) = .ok e s) : Reachable host e
  | fork {bytes : Bytes} {t : Nat} {e e' : Engine P} {s : Engine P × Nat} (hr : Reachable host e)
      (h : Engine.forkState bytes (e, t) = .ok e' s) : Reachable host e'
  | step {io : Io} (hio : io.Within host) {c : Call} {e : Engine P} (hr : Reachable host e) :
      Reachable host (e.step io c).2

section Reachable

variable {host : Host}

/-- An engine that has only just been made has nothing but its image to get right. -/
theorem Engine.WF.idle {identity : Option (Identity P)} {image : Option Image} {revision : Nat}
    (h : ∀ img, image = some img → img.WF P host) :
    Engine.WF ({ identity, image, build := none, revision, hash := none, unchanged := none } :
      Engine P) host where
  image := h
  build := by
    intro b hb
    cases hb
  hash := by
    intro fed index r hh
    cases hh
  unchanged := by
    intro r hr
    cases hr

/-- A new engine is well formed. -/
theorem Engine.wf_new {username machine : String} {password : Bytes} {e : Engine P}
    (h : Engine.new P username password machine = .ok e) : e.WF host := by
  unfold Engine.new at h
  obtain ⟨identity, -, h⟩ := ok_of_bind h
  injection h with h
  subst h
  refine Engine.WF.idle ?_
  intro img hi
  cases hi

/-- A program with a state of its own. -/
theorem wp_runLocal {σ τ α : Type} {init : τ} {c : Async τ α} {Q : α × τ → σ × Nat → Prop}
    {E : Stop → σ × Nat → Prop} {s : σ × Nat} :
    wp (runLocal init c) Q E s
      ↔ wp c (fun a t => Q (a, t.1) (s.1, t.2)) (fun e t => E e (s.1, t.2)) (init, s.2) := by
  obtain ⟨s, t⟩ := s
  unfold wp runLocal
  dsimp only
  cases c (init, t) <;> rfl

/-- What `open_read_only` has checked when it returns `e`. -/
structure OpenedReadOnly (host : Host) (source : String) (total : Nat) (readKey : Bytes)
    (e : Engine P) : Prop where
  opened : ∃ (capability : ReadCapability) (b : Bytes) (size : Nat) (disk : Crypto.Disk)
      (img : Image),
    ReadCapability.fromBytes P readKey = .ok capability ∧ b.length = min total HEADER ∧
    host source 0 b ∧ headerSize b total = .ok size ∧
    verifyHeader P capability.publicKey.val b = .ok () ∧
    capability.openDisk P (slice b 24 110) = .ok disk ∧
    Image.Kept P host (Engine.fresh source size disk) img ∧
    e = { identity := none, image := some img, build := none, revision := 1, hash := none,
          unchanged := none }

/-- What opening for reading only gives. -/
theorem wp_openReadOnly_spec {io : Io} (hio : io.Within host) {source : String} {total : Nat}
    {readKey : Bytes} {s : Unit × Nat} :
    wp (Engine.openReadOnly P io source total readKey)
      (fun e _ => OpenedReadOnly host source total readKey e) (fun st _ => st.Clean) s := by
  unfold Engine.openReadOnly
  rw [wp_bind]
  refine wp_ofResult (fun capability hcap => ?_) (fun _ _ => trivial)
  rw [wp_bind]
  refine wp_exact hio (fun t b hlen hread => ?_) (fun _ _ he => he)
  rw [wp_bind]
  refine wp_ofResult (fun size hsize => ?_) (fun _ _ => trivial)
  rw [wp_bind]
  refine wp_ofResult (fun _ hverify => ?_) (fun _ _ => trivial)
  rw [wp_bind]
  refine wp_ofResult (fun disk hopen => ?_) (fun _ _ => trivial)
  rw [wp_bind, wp_runLocal]
  obtain ⟨hpos, hle, -⟩ := fileSize_ok (headerSize_ok hsize).2
  refine wp_mono (Image.wp_original hio (Image.WF.new hpos hle)) ?_ (fun _ _ h => h.1)
  intro chunk t hpost
  obtain ⟨-, hkept⟩ := hpost
  dsimp only
  rw [wp_bind]
  refine wp_check io ?_ (fun _ => trivial)
  rw [wp_pure]
  exact ⟨capability, b, size, disk, t.1, mapError_eq_ok hcap, hlen, hread, hsize, hverify,
    mapError_eq_ok hopen, hkept, rfl⟩

/-- A read-only engine starts with an authenticated, well-formed image. -/
theorem wp_openReadOnly {io : Io} (hio : io.Within host) {source : String} {total : Nat}
    {readKey : Bytes} {s : Unit × Nat} :
    wp (Engine.openReadOnly P io source total readKey) (fun e _ => e.WF host)
      (fun st _ => st.Clean) s := by
  refine wp_mono (wp_openReadOnly_spec hio) ?_ (fun _ _ h => h)
  intro e _ h
  obtain ⟨capability, b, size, disk, img, -, -, -, -, -, -, hkept, rfl⟩ := h.opened
  refine Engine.WF.idle ?_
  intro img' hi
  obtain rfl := Option.some.inj hi
  exact hkept.2

/-- Every sector the parser accepts has the length of its sector. -/
theorem parseOverlay_wf {size : Nat} : ∀ (fuel : Nat) (previous : Option Nat) (dirty : Dirty)
    (bytes : Bytes) (out : Dirty),
    (∀ s b, dirty[s]? = some b → 512 * s < size ∧ b.length = min 512 (size - 512 * s)) →
    Engine.parseOverlay size fuel previous dirty bytes = .ok out →
    ∀ s b, out[s]? = some b → 512 * s < size ∧ b.length = min 512 (size - 512 * s) := by
  intro fuel
  induction fuel with
  | zero =>
    intro previous dirty bytes out hd h
    unfold Engine.parseOverlay at h
    split at h
    · injection h with h
      rw [← h]
      exact hd
    · cases h
  | succ fuel ih =>
    intro previous dirty bytes out hd h
    unfold Engine.parseOverlay at h
    split at h
    · injection h with h
      rw [← h]
      exact hd
    · split at h
      · cases h
      · dsimp only at h
        split at h
        · cases h
        · split at h
          · cases h
          next hvalid =>
            refine ih _ _ _ _ ?_ h
            intro s b hb
            rw [Std.TreeMap.getElem?_insert] at hb
            by_cases hs : leNat (slice bytes 0 8) = s
            · rw [if_pos (by rw [compare_eq_iff_eq]; exact hs)] at hb
              obtain rfl := Option.some.inj hb
              rw [← hs, length_slice]
              omega
            · rw [if_neg (by rw [compare_eq_iff_eq]; exact hs)] at hb
              exact hd s b hb

/-- A fork is well formed, or nothing has happened. -/
theorem wp_forkState {bytes : Bytes} {s : Engine P × Nat} (hwf : s.1.WF host) :
    wp (Engine.forkState bytes) (fun e _ => e.WF host) (fun st s' => st.Clean ∧ s'.1 = s.1) s := by
  unfold Engine.forkState
  rw [wp_bind, Engine.wp_self, wp_bind]
  refine wp_require (fun _ => ?_) (fun _ => ⟨trivial, rfl⟩)
  cases hi : s.1.image with
  | none => exact ⟨trivial, rfl⟩
  | some img =>
    have hw := hwf.image img hi
    dsimp only
    rw [wp_bind]
    refine wp_ofResult (fun dirty hdirty => ?_) (fun _ _ => ⟨trivial, rfl⟩)
    rw [wp_bind]
    refine wp_ofCrypto (fun key _ => ?_) (fun _ => ⟨trivial, rfl⟩)
    rw [wp_bind]
    refine wp_ofCrypto (fun disk _ => ?_) (fun _ => ⟨trivial, rfl⟩)
    rw [wp_pure]
    refine Engine.WF.idle ?_
    intro img' hi'
    obtain rfl := Option.some.inj hi'
    have hnew : Image.WF P (Engine.fresh img.source img.size disk) host :=
      Image.WF.new hw.size_pos hw.size_le
    refine hnew.setDirty (parseOverlay_wf _ _ _ _ _ ?_ hdirty)
    intro sec b h
    simp at h

/-- **Every reachable engine is well formed.** -/
theorem Reachable.wf {e : Engine P} (h : Reachable host e) : e.WF host := by
  induction h with
  | new h => exact Engine.wf_new h
  | openReadOnly hio h =>
    have hwf := wp_of_ok (wp_openReadOnly hio) h
    exact hwf
  | fork hr h ih =>
    have hwf := wp_of_ok (wp_forkState (s := (_, _)) ih) h
    exact hwf
  | step hio hr ih => exact Engine.wf_step ih hio rfl

/-- What a run leaves is reachable. -/
theorem Reachable.run (calls : List (Io × Call)) (hio : ∀ x ∈ calls, x.1.Within host) :
    ∀ e : Engine P, Reachable host e → Reachable host (e.run calls).2 := by
  induction calls with
  | nil =>
    intro e hr
    exact hr
  | cons x rest ih =>
    intro e hr
    obtain ⟨io, c⟩ := x
    have hstep : e.step io c = ((e.step io c).1, (e.step io c).2) := rfl
    rw [Engine.run_cons hstep]
    exact ih (fun y hy => hio y (by simp [hy])) _ (.step (hio (io, c) (by simp)) hr)

end Reachable

/-! ## §5. The block device. -/

/-- The bytes of record `i` as stored. -/
def Image.record (img : Image) (file : String → Bytes) (i : Nat) : Bytes :=
  slice (file img.source) (recordOffset i) (chunkLen img.size i + OVERHEAD)

variable (P) in
/-- The file of `img` holds `base`: record `i` opens to chunk `i` of `base`. -/
structure Image.Holds (img : Image) (file : String → Bytes) (base : Bytes) : Prop where
  length_base : base.length = img.size
  openUnit : ∀ i, i * CHUNK < img.size → img.disk.openUnit P (unit i).val (img.record file i)
    = .ok (slice base (i * CHUNK) (chunkLen img.size i))

/-- Over a host that stores `file`, the chunks of the records are the only authentic ones. -/
theorem Image.Holds.over {img : Image} {file : String → Bytes} {base : Bytes}
    (h : img.Holds P file base) : img.Over P (stored file) base where
  length_base := h.length_base
  authentic := by
    intro i b hb
    obtain ⟨hlt, -, enc, henc, hstored, hopen⟩ := hb
    have hrecord : enc = img.record file i := by
      unfold Image.record
      rw [← henc]
      exact hstored
    rw [hrecord, h.openUnit i hlt] at hopen
    exact (Except.ok.inj hopen).symm

/-- **The engine is a block device.**  Take any reachable engine with an open image whose
    records decrypt to `base`, and any calls short of `accept`, each with a host that returns
    the stored bytes, fails, comes up short, cancels or drops the future as it likes: the
    results and the content at the end are those of the flat device. -/
theorem engine_refines_device {file : String → Bytes} {e : Engine P}
    (hr : Reachable (stored file) e) {img : Image} (hi : e.image = some img) {base : Bytes}
    (hbase : img.Holds P file base) (calls : List (Io × Call))
    (hio : ∀ x ∈ calls, x.1.Within (stored file)) (hc : ∀ x ∈ calls, x.2.replacesImage = false) :
    ∃ img', (e.run calls).2.image = some img'
      ∧ Device.Runs base (img.content base) (img'.content base) (e.run calls).1 := by
  obtain ⟨content', hruns, -, img', hi', -, hcontent⟩ :=
    run_refines calls hio hc e (img.content base) hr.wf ⟨img, hi, hbase.over, rfl⟩
  refine ⟨img', hi', ?_⟩
  rw [hcontent]
  exact hruns

/-! A five-byte disk in a one-record file, to see a run. -/

def demoBase : Bytes := [10, 20, 30, 40, 50]

def demoFile (_ : String) : Bytes :=
  headerFields 5
    ++ (envelopeHeader .descriptor (zeros 32) 48 ++ List.replicate 48 0 ++ List.replicate TAG 0)
    ++ List.replicate 64 0
    ++ (envelopeHeader .data (zeros 32) 5 ++ demoBase ++ List.replicate TAG 0)

/-- A host that serves `file` and polls `cancelled` to `flag`. -/
def demoIo (file : String → Bytes) (flag : Bool) : Io where
  cancelled := fun _ => flag
  read := fun _ source offset length => .bytes (slice (file source) offset length)
  random := fun _ _ => some fun _ => 0

def demoImage : Image where
  source := "disk"
  size := 5
  disk := { id := zeros 16, key := zeros 32, active := true }
  dirty := ∅
  cache := { values := (∅ : Entries).insert 0 (demoBase, 2), bytes := 5, tick := 2 }

def demoEngine : Engine plain :=
  { identity := none, image := some demoImage, build := none, revision := 1, hash := none,
    unchanged := none }

/-- A write, a read, a cancelled write, a read, a discard and a read. -/
def demoCalls : List (Io × Call) :=
  let io := demoIo demoFile
  [(io false, .write 1 [7, 8]), (io false, .read 0 5), (io true, .write 0 [9]),
   (io false, .read 0 3), (io false, .discard), (io false, .read 0 5)]

/-- The host of the demo serves its file. -/
theorem demoIo_within (file : String → Bytes) (flag : Bool) :
    (demoIo file flag).Within (stored file) := by
  intro t source offset length b hread hlen
  have hb : slice (file source) offset length = b := by
    injection hread
  unfold stored
  rw [hlen, hb]

set_option maxRecDepth 20000 in
/-- The engine of the demo was opened. -/
theorem demoEngine_opened :
    Engine.openReadOnly plain (demoIo demoFile false) "disk" 265 (List.replicate 64 0) ((), 0)
      = .ok demoEngine ((), 8) := rfl

/-- So it is reachable. -/
theorem demoEngine_reachable : Reachable (stored demoFile) demoEngine :=
  .openReadOnly (demoIo_within demoFile false) demoEngine_opened

/-- Its image holds the file. -/
theorem demoImage_holds : demoImage.Holds plain demoFile demoBase := by
  refine ⟨by decide, ?_⟩
  intro i hi
  have h0 : i = 0 := by
    simp only [demoImage, CHUNK] at hi
    omega
  subst h0
  decide +kernel

/-- So its overlay is over the file. -/
theorem demoImage_over : demoImage.Over plain (stored demoFile) demoBase := demoImage_holds.over

/-- Reads and writes, one of them cancelled, and a discard. -/
theorem demoEngine_refines_device :
    (demoEngine.run demoCalls).1.map Prod.snd
        = [.ok .unit, .ok (.bytes [10, 7, 8, 40, 50]),
           .error (.error ⟨"CANCELLED", "Operation cancelled"⟩), .ok (.bytes [10, 7, 8]), .ok .unit,
           .ok (.bytes demoBase)]
      ∧ ∃ img', (demoEngine.run demoCalls).2.image = some img'
        ∧ Device.Runs demoBase (demoImage.content demoBase) (img'.content demoBase)
            (demoEngine.run demoCalls).1 := by
  refine ⟨by decide +kernel, engine_refines_device demoEngine_reachable rfl demoImage_holds
    demoCalls ?_ ?_⟩
  · intro x hx
    simp only [demoCalls, List.mem_cons, List.not_mem_nil, or_false] at hx
    rcases hx with rfl | rfl | rfl | rfl | rfl | rfl <;> exact demoIo_within _ _
  · decide

end My98.Disk
