/-
  My98.Web.StateVault — the file of a machine state under the key of a disk.

  `seal_state` and `open_state` make and open envelopes of the crypto crate: under the key of the disk,
  with its identifier and the context in front of what is authenticated.

    • `Vault.ofDisk`, `Writer.onDisk` — the two ends, on one disk;
    • `Writer.onDisk_agrees`          — they belong together;
    • `disk_round_trip`               — **what is written for a disk is read back with it**;
    • `decoded_sealed`                — **what is read was sealed for the disk**, record by record.
-/
import Mathlib
import My98.Crypto.Exactness
import My98.Web.StateWriting

namespace My98.Web.StateFormat

open My98.Lib My98.Lib.JsonText My98.Torrent.Formats

/-! ## §1. The two ends. -/

/-- A Vault in which the disk is open; `refusal` is how an error of the crate reaches the page. -/
def Vault.ofDisk (P : Crypto.Primitives) (disk : Crypto.Disk) (base : Bytes) (refusal : String → Fail) : Vault where
  base := base
  openState := fun context sealed => (disk.openSnapshot P context sealed).mapError refusal

/-- The same, for the writer: `seal_state` draws its salts from `salts`. -/
def Writer.onDisk (w : Writer) (P : Crypto.Primitives) (disk : Crypto.Disk) (salts : Nat → Option (Crypto.Block 32))
    (refusal : String → Fail) : Writer :=
  { w with sealState := fun index context plain => (disk.sealSnapshot P (salts index) context plain).mapError refusal }

section Snapshots

variable {P : Crypto.Primitives} {disk : Crypto.Disk} {refusal : String → Fail} {place bytes c : Bytes}

theorem mapError_ok {α : Type} {x : Except String α} {a : α} (h : x.mapError refusal = .ok a) : x = .ok a := by
  cases x with
  | ok b => exact congrArg Except.ok (Except.ok.inj h)
  | error e => cases h

theorem sealSnapshot_ok {random : Option (Crypto.Block 32)} (h : disk.sealSnapshot P random place bytes = .ok c) :
    disk.check = .ok () ∧ ∃ salt,
      Crypto.sealWithSalt P disk.key .snapshot Crypto.ZERO_NONCE (disk.id.val ++ place) bytes salt = .ok c := by
  unfold Crypto.Disk.sealSnapshot at h
  cases hcheck : disk.check with
  | error e =>
    rw [hcheck] at h
    cases h
  | ok u =>
    rw [hcheck] at h
    exact ⟨rfl, Crypto.sealEnvelope_ok h⟩

theorem openSnapshot_ok (h : disk.openSnapshot P place c = .ok bytes) :
    Crypto.unsealEnvelope P disk.key .snapshot Crypto.ZERO_NONCE (disk.id.val ++ place) c = .ok bytes := by
  unfold Crypto.Disk.openSnapshot at h
  cases hcheck : disk.check with
  | error e =>
    rw [hcheck] at h
    cases h
  | ok u =>
    rw [hcheck] at h
    exact h

/-- A record is opened as it was sealed. -/
theorem openSnapshot_sealSnapshot (hP : P.Sound) {random : Option (Crypto.Block 32)}
    (h : disk.sealSnapshot P random place bytes = .ok c) :
    disk.openSnapshot P place c = .ok bytes ∧ c.length = bytes.length + 62 := by
  obtain ⟨hcheck, salt, hseal⟩ := sealSnapshot_ok h
  refine ⟨?_, Crypto.length_sealWithSalt hP hseal⟩
  unfold Crypto.Disk.openSnapshot
  rw [hcheck]
  exact Crypto.unsealEnvelope_sealWithSalt hP hseal

/-! ## §2. Writing and reading. -/

variable {w : Writer} {setup : Setup} {salts : Nat → Option (Crypto.Block 32)} {base : Bytes}

theorem Writer.onDisk_agrees (hP : P.Sound) (hvault : setup.vault = Vault.ofDisk P disk base refusal)
    (hbase : w.stateBase = .ok base) (hsize : base.length ≤ 198) (hnonce : w.nonce.length = 16)
    (hinflates : ∀ raw chunks, raw ≠ [] → w.compress raw = (chunks, none) →
      chunks.flatten ≠ [] ∧ Inverts setup.inflater chunks.flatten raw) :
    Agrees (w.onDisk P disk salts refusal) setup where
  base := by
    rw [hvault]
    exact hbase
  baseSize := by
    rw [hvault]
    exact hsize
  nonceSize := hnonce
  opens := by
    intro k context plain sealed hseal
    obtain ⟨hopen, hlength⟩ := openSnapshot_sealSnapshot hP (mapError_ok hseal)
    refine ⟨?_, hlength⟩
    rw [hvault]
    exact congrArg (Except.mapError refusal) hopen
  inflates := hinflates

/-- **What is written for a disk is read back with it.** -/
theorem disk_round_trip {metadata : List (Units × Tree)} {state file : Bytes} {n m : Nat} {input : Input}
    {events : List Event} {s : State} (hP : P.Sound) (hvault : setup.vault = Vault.ofDisk P disk base refusal)
    (hbase : w.stateBase = .ok base) (hsize : base.length ≤ 198) (hnonce : w.nonce.length = 16)
    (hinflates : ∀ raw chunks, raw ≠ [] → w.compress raw = (chunks, none) →
      chunks.flatten ≠ [] ∧ Inverts setup.inflater chunks.flatten raw)
    (hmetadata : Printed metadata) (hwrite : (w.onDisk P disk salts refusal).encodeState metadata state n = .ok file m)
    (hdelivers : Delivers input file) (hsmooth : ∀ e ∈ events, e.Smooth file)
    (hrun : run (step setup) (State.start input) events = some s) :
    (∀ e, s.pc ≠ .closing (.error e) ∧ s.pc ≠ .settled (.error e)) ∧
      ∀ d, s.pc = .settled (.ok d) → d.state = state ∧ w.stateOverlay = .ok d.overlay ∧
        d.metadata = .obj (withLengths metadata state.length d.overlay.length) ∧
        d.stateSha256 = hex (setup.sha256 file) := by
  have hagrees : Agrees (w.onDisk P disk salts refusal) setup :=
    Writer.onDisk_agrees hP hvault hbase hsize hnonce hinflates
  have hround := state_round_trip hagrees hmetadata hwrite hdelivers hsmooth hrun
  exact hround

/-! ## §3. What is accepted. -/

/-- A file that was sealed for the disk: its header, and records in their order, each sealed under the
    header and its place with the salt that it carries. -/
structure SealedFor (P : Crypto.Primitives) (disk : Crypto.Disk) (file : Bytes) (l : Layout) : Prop where
  bytes : file = MAGIC ++ u32 l.header.length ++ l.header ++ (l.opened.map Prod.fst).flatten
  count : l.opened.length = records l.sizes.packed
  sealed : ∀ (k : Nat) (c plain : Bytes), l.opened[k]? = some (c, plain) →
    plain.length = recordSize l.sizes.packed k ∧ ∃ salt,
      Crypto.sealWithSalt P disk.key .snapshot Crypto.ZERO_NONCE (disk.id.val ++ context l.header k) plain salt =
        .ok c

/-- **What `decodeState` accepts was sealed for the disk**, whatever is handed to it. -/
theorem decoded_sealed {input : Input} {events : List Event} {s : State} {d : Decoded} (hP : P.Aead)
    (hvault : setup.vault = Vault.ofDisk P disk base refusal)
    (hrun : run (step setup) (State.start input) events = some s) (hsettled : s.pc = .settled (.ok d)) :
    ∃ (f : File) (chunks : List Bytes) (l : Layout), s.file = some f ∧ (∀ g, input = .file g → f = g) ∧
      f.stream = { items := chunks.map .bytes, tail := .done } ∧ SealedFor P disk chunks.flatten l ∧
        (parseJson l.header >>= sizesOf) = .ok l.sizes ∧ parseJson l.metadata = .ok d.metadata ∧
        setup.inflater.ends (l.opened.map Prod.snd).flatten
          (u32 l.metadata.length ++ l.metadata ++ d.state ++ d.overlay) = true := by
  obtain ⟨hinv, rfl⟩ := inv_run hrun
  obtain ⟨f, chunks, l, hfile, hgiven, hstream, -, hauthentic⟩ := hinv.result d (.inr hsettled)
  refine ⟨f, chunks, l, hfile, hgiven, hstream, ⟨hauthentic.bytes, hauthentic.count, fun k c plain hk => ?_⟩,
    hauthentic.header, hauthentic.metadata, hauthentic.inflated⟩
  have hrecord := hauthentic.opened k c plain hk
  refine ⟨hrecord.plain, ?_⟩
  have hopened := hrecord.opened
  rw [hvault] at hopened
  -- the envelope was made with the salt that it carries
  obtain ⟨-, hlength, hseal⟩ := Crypto.unsealEnvelope_ok hP (openSnapshot_ok (mapError_ok hopened))
  exact ⟨_, hseal⟩

end Snapshots

/-! ## §4. One disk. -/

def demoCipher : Crypto.Primitives := Crypto.demoCipher.unsigned

theorem demoMask_aead : Crypto.demoCipher.Aead := Crypto.maskThenMac_aead _ _

theorem demoCipher_aead : demoCipher.Aead := ⟨demoMask_aead.decrypt_iff, demoMask_aead.length_encrypt⟩

theorem demoCipher_sound : demoCipher.Sound := demoMask_aead.sound

def demoDisk : Crypto.Disk where
  id := Crypto.zeros 16
  key := Crypto.zeros 32
  active := true

def demoRefusal (message : String) : Fail := ⟨"OPERATION", message⟩

def demoBase : Bytes := [1, 2, 3]

def demoOverlay : Bytes := List.replicate 16 5

def demoMetadata : List (Units × Tree) := [(units "note", .str (units "boot"))]

theorem demoMetadata_printed : Printed demoMetadata := by
  have hnote : ∀ c ∈ units "note", 0 < c ∧ c < 128 := by decide
  have hboot : ∀ c ∈ units "boot", 0 < c ∧ c < 128 := by decide
  exact ⟨⟨chars_of_plain (by decide), chars_of_plain (by decide), trivial⟩,
    ⟨fun c hc => isValidChar_ascii c (hnote c hc), fun c hc => isValidChar_ascii c (hboot c hc), trivial⟩⟩

def demoVault : Setup := { demoSetup with vault := Vault.ofDisk demoCipher demoDisk demoBase demoRefusal }

/-- The writer of one state, before it has a disk. -/
def demoPlain : Writer := { demoWriter with stateBase := .ok demoBase, stateOverlay := .ok demoOverlay }

def demoSealer : Writer := demoPlain.onDisk demoCipher demoDisk (fun _ => some (Crypto.zeros 32)) demoRefusal

/-- What `encodeState` returns, or nothing. -/
def Writer.written (w : Writer) (metadata : List (Units × Tree)) (state : Bytes) : Bytes :=
  match w.encodeState metadata state 0 with
  | .ok file _ => file
  | .error _ _ => []

theorem Writer.written_returned {w : Writer} {metadata : List (Units × Tree)} {state : Bytes}
    (h : w.written metadata state ≠ []) : ∃ m, w.encodeState metadata state 0 = .ok (w.written metadata state) m := by
  cases hwrite : w.encodeState metadata state 0 with
  | ok file m => exact ⟨m, by rw [Writer.written, hwrite]⟩
  | error e m =>
    rw [Writer.written, hwrite] at h
    exact absurd rfl h

def demoSealed : Bytes := demoSealer.written demoMetadata [7]

/-- The file arrives in two chunks, and the first ends within the header. -/
def demoSealedFile : File where
  size := .absent
  stream := { items := [.bytes (demoSealed.take 60), .bytes (demoSealed.drop 60)], tail := .done }
  locked := false

/-- What is compressed. -/
def demoSections : Bytes :=
  let text := encodeJson (.obj (withLengths demoMetadata 1 demoOverlay.length))
  u32 text.length ++ text ++ [7] ++ demoOverlay

/-- A run in which nobody interferes; the decompressor gives the sections in two parts. -/
def demoReading : List Event :=
  [.enter quiet, .turn .source quiet, .answer .source quiet, .turn .source quiet, .turn .source quiet,
    .turn .source quiet, .answer .source quiet, .turn .source quiet, .base none quiet, .turn .raw quiet, .pull quiet,
    .turn .source quiet, .turn .source quiet, .pulled quiet, .pull quiet, .turn .source quiet, .answer .source quiet,
    .inflate (demoSections.take 60), .answer .raw quiet, .turn .raw quiet, .turn .raw quiet, .turn .raw quiet,
    .turn .raw quiet, .turn .raw quiet, .turn .raw quiet, .turn .raw quiet, .inflate (demoSections.drop 60),
    .answer .raw quiet, .turn .raw quiet, .turn .raw quiet, .inflated, .answer .raw quiet, .closed]

def demoUnsealed : State :=
  (run (step demoVault) (State.start (.file demoSealedFile)) demoReading).getD (State.start .other)

theorem demoUnsealed_accepts : demoUnsealed.pc.accepts = true := by decide +kernel

theorem demoUnsealed_run : run (step demoVault) (State.start (.file demoSealedFile)) demoReading = some demoUnsealed :=
  eq_some_of_test rfl (fun s => s.pc.accepts) rfl demoUnsealed_accepts

theorem demoUnsealed_settled : ∃ d : Decoded, demoUnsealed.pc = .settled (.ok d) ∧ d.state = [7] :=
  Pc.accepts_ok demoUnsealed_accepts

theorem demo_disk_round_trip : ∃ d : Decoded, demoUnsealed.pc = .settled (.ok d) ∧ d.state = [7] ∧
    d.overlay = demoOverlay ∧ d.metadata = .obj (withLengths demoMetadata 1 16) := by
  have hwritten : demoSealed ≠ [] := by decide +kernel
  obtain ⟨m, hwrite⟩ := Writer.written_returned hwritten
  obtain ⟨d, hd, -⟩ := demoUnsealed_settled
  have hdelivers : Delivers (.file demoSealedFile) demoSealed :=
    ⟨⟨[demoSealed.take 60, demoSealed.drop 60], rfl, by
      rw [List.flatten_cons, List.flatten_singleton, List.take_append_drop]⟩, rfl, .inl rfl⟩
  have hsmooth : ∀ e ∈ demoReading, e.Smooth demoSealed := by
    simp [demoReading, Event.Smooth, quiet]
  have hreturned := disk_round_trip demoCipher_sound (show demoVault.vault = _ from rfl)
    (show demoPlain.stateBase = .ok demoBase from rfl) (by decide) rfl demoWriter_agrees.inflates demoMetadata_printed
    hwrite hdelivers hsmooth demoUnsealed_run
  obtain ⟨hstate, hoverlay, htree, -⟩ := hreturned.2 d hd
  have hsector : demoOverlay = d.overlay := Except.ok.inj hoverlay
  rw [← hsector, demoOverlay, List.length_replicate] at htree
  exact ⟨d, hd, hstate, hsector.symm, htree⟩

theorem demo_decoded_sealed : ∃ (chunks : List Bytes) (l : Layout) (d : Decoded),
    demoUnsealed.pc = .settled (.ok d) ∧ demoSealedFile.stream = { items := chunks.map .bytes, tail := .done } ∧
      SealedFor demoCipher demoDisk chunks.flatten l ∧ parseJson l.metadata = .ok d.metadata := by
  obtain ⟨d, hd, -⟩ := demoUnsealed_settled
  obtain ⟨f, chunks, l, -, hgiven, hstream, hsealed, -, hmetadata, -⟩ :=
    decoded_sealed demoCipher_aead (show demoVault.vault = _ from rfl) demoUnsealed_run hd
  obtain rfl := hgiven demoSealedFile rfl
  exact ⟨chunks, l, d, hd, hstream, hsealed, hmetadata⟩

end My98.Web.StateFormat
