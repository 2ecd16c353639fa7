/-
  My98.Disk.Panics — the engine never panics
  (`src/disk/src/lib.rs`, `src/disk/src/snapshot.rs`).

  A panic can come from two kinds of places.  The calls of the engine write their own out:
  each subtraction, slice, `unwrap` and map range is an operation that stops with `panic`.
  The helpers that only compute (`bounds`, `header_size`, the parser of `fork_state`, …) are
  written above as plain functions; §1 writes each of them AGAIN with its slices and unsigned
  operators, and shows that it is the same function, so that none of them panics either.

    • `Represented` — the cross-field facts the slices and `unwrap`s rest on;
    • `Operation`   — anything a caller can do with an engine, forks and `verify_image` included;
    • `never_panics` — both, for every engine ANY host can produce, however it answers.

  The three counters (revision, tick, serial) are unbounded here; everything else is checked
  against its own width.
-/
import Mathlib.Algebra.Order.Ring.Nat
import Mathlib.Tactic.Common
import My98.Disk.Overlay
import My98.Disk.Verify

namespace My98.Disk

open My98.Lib My98.Crypto

variable {P : Primitives} {σ α β : Type}

/-! ## §1. The helpers, with their panics written out. -/

namespace Checked

/-- `b.try_into().unwrap()` into an array of `n` bytes. -/
def array (n : Nat) (b : Bytes) : Async σ Bytes :=
  if b.length = n then pure b else throw .panic

def bounds (img : Image) (offset len : Nat) : Async Image Unit :=
  if img.size < offset then fail ⟨"IO_ERROR", "Disk range out of bounds"⟩
  else do
    let rest ← usub img.size offset
    if rest < len then fail ⟨"IO_ERROR", "Disk range out of bounds"⟩ else pure ()

/-- `n[..8].copy_from_slice(&index.to_le_bytes())`. -/
def unit (index : Nat) : Async σ Bytes :=
  copyFromSlice (List.replicate 12 0) 0 8 (leBytes 8 index)

def fileSize (size : Nat) : Async σ Nat :=
  if size = 0 ∨ MAX_SIZE < size then
    fail (corrupt "Image length must be between 1 byte and 1 TiB")
  else do
    let overhead ← umul (chunkCount size) OVERHEAD
    pure (HEADER + size + overhead)

/-- Version and chunk size; `||` looks at the second only when the first is right. -/
def unsupported (b : Bytes) : Async σ Bool := do
  let version ← array 4 (← index b 8 12)
  if leNat version ≠ 1 then pure true
  else do
    let chunk ← array 4 (← index b 12 16)
    pure (decide (leNat chunk ≠ CHUNK))

def headerSize (b : Bytes) (total : Nat) : Async σ Nat :=
  if b.length < 8 then fail (corrupt "Truncated disk header")
  else do
    let magic ← index b 0 8
    if magic ≠ MAGIC then
      fail ⟨"UNSUPPORTED_FORMAT",
        "Unsupported disk format. CAR histories v1/v2/v3 are not supported; create a new disk from an image."⟩
    else if b.length ≠ HEADER then fail (corrupt "Truncated disk header")
    else do
      let other ← unsupported b
      if other then fail ⟨"UNSUPPORTED_FORMAT", "Unsupported linear disk format"⟩
      else do
        let size ← array 8 (← index b 16 24)
        let expected ← fileSize (leNat size)
        if expected ≠ total then fail (corrupt "Encrypted file length mismatch")
        else pure (leNat size)

def verifyHeader (P : Primitives) (publicKey b : Bytes) : Async σ Unit := do
  let body ← index b 0 134
  let signature ← index b 134 b.length
  if verify P publicKey (signed body) signature then pure ()
  else fail (corrupt "Invalid disk header signature")

def parseHeader (id : Identity P) (b : Bytes) (total : Nat) : Async σ (Crypto.Disk × Nat) := do
  let size ← headerSize b total
  let descriptor ← index b 24 134
  let disk ← ofResult <| (id.openDisk descriptor).mapError fun _ =>
    ⟨"AUTHENTICATION_FAILED", "Credentials are incorrect or the encrypted descriptor is damaged"⟩
  let publicKey ← ofResult (id.publicKeyBytes.mapError operation)
  verifyHeader P publicKey b
  pure (disk, size)

def openReadOnly (P : Primitives) (io : Io) (source : String) (total : Nat) (readKey : Bytes) :
    Async Unit (Engine P) := do
  let capability ← ofResult <| (ReadCapability.fromBytes P readKey).mapError fun _ =>
    ⟨"INVALID_READ_KEY", "Invalid read key"⟩
  let b ← exact io source 0 (min total HEADER)
  let size ← headerSize b total
  verifyHeader P capability.publicKey.val b
  let descriptor ← index b 24 134
  let disk ← ofResult <| (capability.openDisk P descriptor).mapError fun _ =>
    ⟨"AUTHENTICATION_FAILED", "Read key cannot authenticate the disk descriptor"⟩
  let (_, image) ← runLocal { source, size, disk, dirty := ∅, cache := Cache.new }
    (Image.original P io 0)
  check io
  pure { identity := none, image := some image, build := none, revision := 1, hash := none,
         unchanged := none }

/-- The loop of `fork_state`, with the position it slices at. -/
def parseOverlay (size : Nat) (bytes : Bytes) : Nat → Nat → Option Nat → Dirty → Async σ Dirty
  | 0, pos, _, dirty => if pos < bytes.length then throw .diverged else pure dirty
  | fuel + 1, pos, previous, dirty =>
    if pos < bytes.length then do
      let left ← usub bytes.length pos
      if left < 12 then fail (corrupt "Truncated state sector")
      else do
        let sector ← array 8 (← index bytes pos (pos + 8))
        let len ← array 4 (← index bytes (pos + 8) (pos + 12))
        let sector := leNat sector
        let len := leNat len
        let pos := pos + 12
        if 2 ^ 64 ≤ sector * 512 then fail (corrupt "State sector overflow")
        else if size ≤ sector * 512 ∨ ∃ p ∈ previous, sector ≤ p then
          fail (corrupt "Invalid state sector")
        else do
          let rest ← usub size (sector * 512)
          if len ≠ min rest 512 then fail (corrupt "Invalid state sector")
          else do
            let left ← usub bytes.length pos
            if left < len then fail (corrupt "Invalid state sector")
            else do
              let b ← index bytes pos (pos + len)
              parseOverlay size bytes fuel (pos + len) (some sector) (dirty.insert sector b)
    else pure dirty

def openDisk (io : Io) (source : String) (total : Nat) : Async (Engine P) Unit := do
  let _ ← Engine.owner
  let e ← Engine.self
  require (e.image.isNone ∧ e.build.isNone)
    (operation "Close the current disk before opening another")
  let b ← exact io source 0 (min total HEADER)
  let id ← Engine.owner
  let (disk, size) ← parseHeader id b total
  check io
  Engine.update fun e =>
    { e with image := some { source, size, disk, dirty := ∅, cache := Cache.new }
             revision := e.revision + 1 }

def forkState (bytes : Bytes) : Async (Engine P) (Engine P) := do
  let e ← Engine.self
  require (e.build.isNone = true) (operation "Disk save in progress")
  match e.image with
  | none => throw Engine.noDisk
  | some img => do
    let dirty ← parseOverlay img.size bytes bytes.length 0 none ∅
    let key ← ofCrypto img.disk.exportReadKey
    let disk ← ofCrypto (Crypto.Disk.fromReadKey key)
    pure { identity := e.identity
           image := some { source := img.source, size := img.size, disk, dirty, cache := Cache.new }
           build := none
           revision := e.revision + 1
           hash := none
           unchanged := none }

/-! Each of them is the function it checks. -/

/-- A slice of the right length converts to an array. -/
theorem array_eq {n : Nat} {b : Bytes} (h : b.length = n) : (array n b : Async σ Bytes) = pure b :=
  if_pos h

/-- A chain of fallible steps, one at a time. -/
theorem ofResult_bind (r : Except Error α) (f : α → Except Error β) :
    (ofResult (r >>= f) : Async σ β) = ofResult r >>= fun a => ofResult (f a) := by
  cases r <;> rfl

/-- The check of the bounds neither overflows nor panics. -/
theorem bounds_eq (img : Image) (offset len : Nat) :
    bounds img offset len = Image.bounds img offset len := by
  unfold bounds Image.bounds require
  by_cases h : img.size < offset
  · rw [if_pos h, if_neg (by omega)]
  · rw [if_neg h, usub_eq (by omega), pure_bind]
    by_cases h' : img.size - offset < len
    · rw [if_pos h', if_neg (by omega)]
    · rw [if_neg h', if_pos (by omega)]

/-- The number of a unit fits into its bytes. -/
theorem unit_eq (index : Nat) : (unit index : Async σ Bytes) = pure (Disk.unit index).val := by
  unfold unit
  rw [copyFromSlice_eq (by omega) (by simp) (by simp)]
  congr 1

/-- The size of the file is computed without overflow. -/
theorem fileSize_eq (size : Nat) : (fileSize size : Async σ Nat) = ofResult (Disk.fileSize size) := by
  unfold fileSize Disk.fileSize
  split
  · rfl
  · rw [umul_eq]
    · rfl
    · have hmax : size ≤ MAX_SIZE := by omega
      simp only [chunkCount, divCeil, CHUNK, OVERHEAD, MAX_SIZE] at *
      omega

/-- The version and the chunk of a header are read within it. -/
theorem unsupported_eq {b : Bytes} (h : b.length = HEADER) :
    (unsupported b : Async σ Bool)
      = pure (decide (leNat (slice b 8 4) ≠ 1 ∨ leNat (slice b 12 4) ≠ CHUNK)) := by
  simp only [HEADER] at h
  unfold unsupported
  rw [index_eq (by omega) (by omega), pure_bind, array_eq (by rw [length_slice]; omega), pure_bind]
  by_cases hversion : leNat (slice b 8 4) ≠ 1
  · rw [if_pos hversion, decide_eq_true (Or.inl hversion)]
  · rw [if_neg hversion, index_eq (by omega) (by omega), pure_bind,
      array_eq (by rw [length_slice]; omega), pure_bind]
    simp [not_ne_iff.mp hversion]

/-- The size in a header is read within it. -/
theorem headerSize_eq (b : Bytes) (total : Nat) :
    (headerSize b total : Async σ Nat) = ofResult (Disk.headerSize b total) := by
  unfold headerSize Disk.headerSize
  by_cases hshort : b.length < 8
  · rw [if_pos hshort, if_pos hshort]
    rfl
  · rw [if_neg hshort, if_neg hshort, index_eq (by omega) (by omega), pure_bind]
    by_cases hmagic : slice b 0 8 ≠ MAGIC
    · rw [if_pos hmagic, if_pos hmagic]
      rfl
    · rw [if_neg hmagic, if_neg hmagic]
      by_cases hlen : b.length ≠ HEADER
      · rw [if_pos hlen, if_pos hlen]
        rfl
      · have hlen' : b.length = 198 := not_ne_iff.mp hlen
        rw [if_neg hlen, if_neg hlen, unsupported_eq (not_ne_iff.mp hlen), pure_bind]
        by_cases hother : leNat (slice b 8 4) ≠ 1 ∨ leNat (slice b 12 4) ≠ CHUNK
        · rw [if_pos (decide_eq_true hother), if_pos hother]
          rfl
        · rw [if_neg (by simpa using hother), if_neg hother, index_eq (by omega) (by omega),
            pure_bind, array_eq (by rw [length_slice]; omega), pure_bind, fileSize_eq,
            ofResult_bind]
          refine bind_congr fun expected => ?_
          split <;> rfl

/-- A header that has a size has its full length. -/
theorem headerSize_length {b : Bytes} {total size : Nat} (h : Disk.headerSize b total = .ok size) :
    b.length = HEADER := (headerSize_ok h).1

/-- The signature of a header is read within it. -/
theorem verifyHeader_eq (publicKey : Bytes) {b : Bytes} (h : b.length = HEADER) :
    (verifyHeader P publicKey b : Async σ Unit) = ofResult (Disk.verifyHeader P publicKey b) := by
  simp only [HEADER] at h
  unfold verifyHeader Disk.verifyHeader
  rw [index_eq (by omega) (by omega), pure_bind, index_eq (by omega) (by omega), pure_bind]
  have hrest : slice b 134 (b.length - 134) = b.drop 134 := by
    unfold slice
    rw [List.take_of_length_le (by rw [List.length_drop])]
  rw [hrest]
  split <;> rfl

/-- What follows a header size that was read may count on the length of the header. -/
theorem headerSize_bind {b : Bytes} {total : Nat} {k k' : Nat → Async σ β}
    (h : b.length = HEADER → ∀ size, k size = k' size) :
    headerSize b total >>= k = ofResult (Disk.headerSize b total) >>= k' := by
  rw [headerSize_eq]
  cases hsize : Disk.headerSize b total with
  | error e => rfl
  | ok size => exact h (headerSize_length hsize) size

/-- A header is parsed without a panic. -/
theorem parseHeader_eq (id : Identity P) (b : Bytes) (total : Nat) :
    (parseHeader id b total : Async σ (Crypto.Disk × Nat)) =
      ofResult (Disk.parseHeader id b total) := by
  unfold parseHeader Disk.parseHeader
  rw [ofResult_bind]
  refine headerSize_bind fun hlen size => ?_
  have hlen' : b.length = 198 := hlen
  rw [index_eq (by omega) (by omega), pure_bind, ofResult_bind]
  refine bind_congr fun disk => ?_
  rw [ofResult_bind]
  refine bind_congr fun publicKey => ?_
  rw [verifyHeader_eq publicKey hlen, ofResult_bind]
  rfl

/-- `open_read_only` does not panic. -/
theorem openReadOnly_eq (io : Io) (source : String) (total : Nat) (readKey : Bytes) :
    openReadOnly P io source total readKey = Engine.openReadOnly P io source total readKey := by
  unfold openReadOnly Engine.openReadOnly
  refine bind_congr fun capability => ?_
  refine bind_congr fun b => ?_
  refine headerSize_bind fun hlen size => ?_
  have hlen' : b.length = 198 := hlen
  rw [verifyHeader_eq _ hlen]
  refine bind_congr fun _ => ?_
  rw [index_eq (by omega) (by omega), pure_bind]

/-- **The parser slices where it may.**  The position stands for the bytes still unread. -/
theorem parseOverlay_eq (size : Nat) (bytes : Bytes) : ∀ (fuel pos : Nat) (previous : Option Nat)
    (dirty : Dirty), pos ≤ bytes.length → bytes.length ≤ pos + fuel →
    (parseOverlay size bytes fuel pos previous dirty : Async σ Dirty) =
      ofResult (Engine.parseOverlay size fuel previous dirty (bytes.drop pos)) := by
  intro fuel
  induction fuel with
  | zero =>
    intro pos previous dirty hle hfuel
    unfold parseOverlay Engine.parseOverlay
    rw [if_neg (by omega), if_pos (by rw [List.drop_eq_nil_of_le (by omega)]; rfl)]
    rfl
  | succ fuel ih =>
    intro pos previous dirty hle hfuel
    unfold parseOverlay Engine.parseOverlay
    by_cases hlt : pos < bytes.length
    · have hdrop : (bytes.drop pos).length = bytes.length - pos := List.length_drop
      have hne : (bytes.drop pos).isEmpty = false := by
        rw [← Bool.not_eq_true, List.isEmpty_iff_length_eq_zero]
        omega
      rw [if_pos hlt, usub_eq (by omega), pure_bind, hne, hdrop]
      by_cases hshort : bytes.length - pos < 12
      · rw [if_pos hshort, if_neg (by simp), if_pos hshort]
        rfl
      · have hsector : slice bytes pos 8 = slice (bytes.drop pos) 0 8 := by simp [slice]
        have hlen : slice bytes (pos + 8) 4 = slice (bytes.drop pos) 8 4 := by
          simp [slice, List.drop_drop]
        rw [if_neg hshort, if_neg (by simp), if_neg hshort, index_eq (by omega) (by omega), pure_bind,
          array_eq (by rw [length_slice]; omega), pure_bind, index_eq (by omega) (by omega),
          pure_bind, array_eq (by rw [length_slice]; omega), pure_bind, Nat.add_sub_cancel_left,
          show pos + 12 - (pos + 8) = 4 by omega, hsector, hlen]
        dsimp only
        generalize leNat (slice (bytes.drop pos) 0 8) = sector
        generalize leNat (slice (bytes.drop pos) 8 4) = len
        -- What is left behind the header of the entry.
        have hrest : ((bytes.drop pos).drop 12).length = bytes.length - (pos + 12) := by
          rw [List.length_drop, hdrop]
          omega
        -- Both sides check in one order, and a check guards each subtraction.
        by_cases hover : 2 ^ 64 ≤ sector * 512
        · rw [if_pos hover, if_pos hover]
          rfl
        · rw [if_neg hover, if_neg hover, hrest]
          by_cases hprevious : size ≤ sector * 512 ∨ ∃ p ∈ previous, sector ≤ p
          · rw [if_pos hprevious, if_pos (hprevious.imp_right Or.inl)]
            rfl
          · rw [if_neg hprevious, usub_eq (by omega), pure_bind]
            by_cases hexact : len ≠ min (size - sector * 512) 512
            · rw [if_pos hexact, if_pos (.inr (.inr (.inl hexact)))]
              rfl
            · rw [if_neg hexact, usub_eq (by omega), pure_bind]
              by_cases hroom : bytes.length - (pos + 12) < len
              · rw [if_pos hroom, if_pos (.inr (.inr (.inr hroom)))]
                rfl
              · have hvalid := not_or.mp hprevious
                rw [if_neg hroom, if_neg (not_or.mpr ⟨hvalid.1, not_or.mpr ⟨hvalid.2,
                  not_or.mpr ⟨hexact, hroom⟩⟩⟩), index_eq (by omega) (by omega), pure_bind,
                  Nat.add_sub_cancel_left, ih _ _ _ (by omega) (by omega)]
                congr 2
                · simp [slice, List.drop_drop]
                · rw [List.drop_drop, List.drop_drop, Nat.add_assoc]
    · rw [if_neg hlt, if_pos (by rw [List.drop_eq_nil_of_le (by omega)]; rfl)]
      rfl

/-- `open_disk` does not panic. -/
theorem openDisk_eq (io : Io) (source : String) (total : Nat) :
    (openDisk io source total : Async (Engine P) Unit) = Engine.openDisk io source total := by
  unfold openDisk Engine.openDisk
  simp only [parseHeader_eq]

/-- `fork_state` does not panic. -/
theorem forkState_eq (bytes : Bytes) :
    (forkState bytes : Async (Engine P) (Engine P)) = Engine.forkState bytes := by
  unfold forkState Engine.forkState
  refine bind_congr fun e => ?_
  refine bind_congr fun _ => ?_
  cases e.image with
  | none => rfl
  | some img =>
    dsimp only
    rw [parseOverlay_eq img.size bytes _ 0 none ∅ (Nat.zero_le _) (by omega), List.drop_zero]

end Checked

/-! ## §2. What the slices and `unwrap`s rest on. -/

/-- The representation invariant of an engine. -/
structure Engine.Represented (e : Engine P) : Prop where
  /-- Each written sector lies in the image, with exactly the bytes of that sector. -/
  dirty : ∀ img, e.image = some img → ∀ s b, img.dirty[s]? = some b →
    512 * s < img.size ∧ b.length = min 512 (img.size - 512 * s)
  /-- Each cached chunk is one of the image, and whole. -/
  cached : ∀ img, e.image = some img → ∀ i b, img.cache.find i = some b →
    i < chunkCount img.size ∧ b.length = chunkLen img.size i
  build : ∀ b, e.build = some b → e.identity.isSome ∧ (b.raw = none → e.image.isSome)
  unchanged : e.unchanged.isSome → e.image.isSome
  hash : e.hash.isSome → e.image.isSome

/-- A well-formed engine is represented: its dirty sectors lie on the disk. -/
theorem Engine.WF.represented {host : Host} {e : Engine P} (h : e.WF host) : e.Represented where
  dirty := fun img hi => (h.image img hi).dirty
  cached := by
    intro img hi i b hb
    obtain ⟨hlt, hlen, -⟩ := (h.image img hi).cached i b hb
    exact ⟨lt_chunkCount.mpr hlt, hlen⟩
  build := by
    intro b hb
    obtain ⟨hid, -, -, -, -, himage⟩ := h.build b hb
    refine ⟨hid, fun hraw => ?_⟩
    obtain ⟨img, hi, -⟩ := himage hraw
    rw [hi]
    rfl
  unchanged := by
    intro hu
    obtain ⟨r, hr⟩ := Option.isSome_iff_exists.mp hu
    obtain ⟨-, img, hi, -⟩ := h.unchanged r hr
    rw [hi]
    rfl
  hash := by
    intro hh
    obtain ⟨⟨fed, index, revision⟩, hr⟩ := Option.isSome_iff_exists.mp hh
    obtain ⟨img, hi, -⟩ := h.hash fed index revision hr
    rw [hi]
    rfl

/-! ## §3. Everything a caller can do. -/

/-- The methods that only look at an engine. -/
inductive Query where
  | exportReadKey
  | describe
  | source
  | header
  | stateBase
  | stateOverlay
  | sealState (context bytes : Bytes)
  | openState (context bytes : Bytes)

namespace Engine

/-- `&self.image.as_ref().ok_or_else(|| operation("No disk open"))?.source`. -/
def source : Async (Engine P) String :=
  onImage noDisk (do pure (← Image.self).source)

end Engine

def Query.run (io : Io) : Query → Async (Engine P) Unit
  | .exportReadKey => (fun _ => ()) <$> Engine.exportReadKey
  | .describe => (fun _ => ()) <$> Engine.describe
  | .source => (fun _ => ()) <$> Engine.source
  | .header => (fun _ => ()) <$> Engine.header
  | .stateBase => (fun _ => ()) <$> Engine.stateBase io
  | .stateOverlay => (fun _ => ()) <$> Engine.stateOverlay
  | .sealState context bytes => (fun _ => ()) <$> Engine.sealState io context bytes
  | .openState context bytes => (fun _ => ()) <$> Engine.openState context bytes

/-- One operation of a caller.  `verify_image` takes a turn for each chunk, of which no image
    has more than 2^24. -/
inductive Operation where
  | call (c : Call)
  | query (q : Query)
  | verifyImage
  | fork (bytes : Bytes)

def Operation.run (io : Io) : Operation → Async (Engine P) Unit
  | .call c => (fun _ => ()) <$> c.run io
  | .query q => q.run io
  | .verifyImage => (fun _ => ()) <$> Engine.verifyImage io (2 ^ 24)
  | .fork bytes => (fun _ => ()) <$> Checked.forkState bytes

/-- How the operation ends, and the engine it leaves. -/
def Operation.outcome (op : Operation) (io : Io) (e : Engine P) (t : Nat) :
    Except Stop Unit × Engine P :=
  match op.run io (e, t) with
  | .ok _ s => (.ok (), s.1)
  | .error st s => (.error st, s.1)

/-- An engine some caller can hold, whatever the hosts did. -/
inductive Driven : Engine P → Prop
  | new {username machine : String} {password : Bytes} {e : Engine P}
      (h : Engine.new P username password machine = .ok e) : Driven e
  | openReadOnly {io : Io} {source : String} {total t : Nat} {readKey : Bytes} {e : Engine P}
      {s : Unit × Nat} (h : Checked.openReadOnly P io source total readKey ((), t) = .ok e s) :
      Driven e
  | fork {bytes : Bytes} {t : Nat} {e e' : Engine P} {s : Engine P × Nat} (hd : Driven e)
      (h : Checked.forkState bytes (e, t) = .ok e' s) : Driven e'
  | operation {e : Engine P} (hd : Driven e) (op : Operation) (io : Io) (t : Nat) :
      Driven (op.outcome io e t).2

/-- The host that may hand out anything. -/
def anyHost : Host := fun _ _ _ => True

/-- Every host answers as some host would. -/
theorem Io.within_any (io : Io) : io.Within anyHost := fun _ _ _ _ _ _ _ => trivial

section Operations

variable {io : Io} {s : Engine P × Nat}

/-- A question about the image. -/
theorem wp_peek (f : Image → α) {Q : α → Engine P × Nat → Prop} {E : Stop → Engine P × Nat → Prop}
    (hmissing : ∀ e, E (.error e) s) (hok : ∀ img, s.1.image = some img → Q (f img) s) :
    wp (Engine.onImage Engine.noDisk (do pure (f (← Image.self)))) Q E s := by
  refine Engine.wp_onImage (fun _ => hmissing _) (fun img hi => ?_)
  have hsame : ({ s.1 with image := some img } : Engine P) = s.1 := by rw [← hi]
  simp only [Image.self, wp_bind, wp_get, wp_pure]
  rw [hsame]
  exact hok img hi

/-- **Looking changes nothing and never panics.** -/
theorem wp_query (q : Query) : wp (q.run io) (fun _ s' => s'.1 = s.1)
    (fun st s' => st.Clean ∧ s'.1 = s.1) s := by
  cases q with
  | exportReadKey =>
    rw [Query.run, wp_map]
    unfold Engine.exportReadKey
    rw [wp_bind]
    refine Engine.wp_owner (fun id _ => ?_) (fun _ => ⟨trivial, rfl⟩)
    exact wp_ofCrypto (fun _ _ => rfl) (fun _ => ⟨trivial, rfl⟩)
  | describe =>
    rw [Query.run, wp_map]
    exact Engine.wp_describe (fun _ _ _ _ => rfl) (fun _ => ⟨trivial, rfl⟩)
  | source =>
    rw [Query.run, wp_map]
    exact wp_peek Image.source (fun _ => ⟨trivial, rfl⟩) (fun _ _ => rfl)
  | header =>
    rw [Query.run, wp_map]
    unfold Engine.header
    rw [wp_bind]
    refine Engine.wp_owner (fun id _ => ?_) (fun _ => ⟨trivial, rfl⟩)
    rw [wp_bind, Engine.wp_self]
    cases s.1.build with
    | none => exact ⟨trivial, rfl⟩
    | some b => rfl
  | stateBase =>
    rw [Query.run, wp_map]
    unfold Engine.stateBase
    rw [wp_bind]
    refine wp_peek Image.source (fun _ => ⟨trivial, rfl⟩) (fun img _ => ?_)
    exact wp_exact (Io.within_any io) (fun _ _ _ _ => rfl) (fun _ _ he => ⟨he, rfl⟩)
  | stateOverlay =>
    rw [Query.run, wp_map]
    unfold Engine.stateOverlay
    rw [wp_bind]
    refine Engine.wp_owner (fun id _ => ?_) (fun _ => ⟨trivial, rfl⟩)
    exact wp_peek (fun img => Engine.overlayBytes img.dirty) (fun _ => ⟨trivial, rfl⟩)
      (fun _ _ => rfl)
  | sealState context bytes =>
    rw [Query.run, wp_map]
    unfold Engine.sealState
    rw [wp_bind]
    refine Engine.wp_owner (fun id _ => ?_) (fun _ => ⟨trivial, rfl⟩)
    rw [wp_bind]
    refine wp_peek Image.disk (fun _ => ⟨trivial, rfl⟩) (fun img _ => ?_)
    rw [wp_bind]
    refine Engine.wp_draw io (fun salt => ?_)
    exact wp_ofCrypto (fun _ _ => rfl) (fun _ => ⟨trivial, rfl⟩)
  | openState context bytes =>
    rw [Query.run, wp_map]
    unfold Engine.openState
    rw [wp_bind]
    refine wp_peek Image.disk (fun _ => ⟨trivial, rfl⟩) (fun img _ => ?_)
    exact wp_ofResult (fun _ _ => rfl) (fun _ _ => ⟨trivial, rfl⟩)

/-- Both invariants, over the host that may hand out anything. -/
structure Engine.Sound (e : Engine P) : Prop where
  wf : e.WF anyHost
  hashing : e.Hashing anyHost

/-- There are at most 2^24 chunks. -/
theorem chunkCount_le {size : Nat} (h : size ≤ MAX_SIZE) : chunkCount size ≤ 2 ^ 24 := by
  simp only [chunkCount, divCeil, CHUNK, MAX_SIZE] at *
  omega

/-- **One operation keeps the invariants, and ends without a panic.** -/
theorem wp_operation (hs : s.1.Sound) (op : Operation) : wp (op.run io) (fun _ s' => s'.1.Sound)
    (fun st s' => st.Clean ∧ s'.1.Sound) s := by
  cases op with
  | call c =>
    rw [Operation.run, wp_map]
    refine wp_mono (Engine.wp_run hs.wf (Io.within_any io) c) ?_ ?_
    · intro v s' hdone
      exact ⟨hdone.wf hs.wf, hdone.hashing hs.wf hs.hashing⟩
    · rintro st s' ⟨hst, hstop⟩
      exact ⟨hst, hstop.wf hs.wf, hstop.hashing hs.hashing⟩
  | query q =>
    refine wp_mono (wp_query q) ?_ ?_
    · intro _ s' hsame
      rw [hsame]
      exact hs
    · rintro st s' ⟨hst, hsame⟩
      rw [hsame]
      exact ⟨hst, hs⟩
  | verifyImage =>
    rw [Operation.run, wp_map]
    refine wp_mono (wp_verifyImage (Io.within_any io) (e := s.1) (t := s.2) hs.wf hs.hashing
      fun img hi => chunkCount_le (hs.wf.image img hi).size_le) ?_ ?_
    · rintro d s' ⟨hfollows, -⟩
      exact ⟨hfollows.wf, hfollows.hashing⟩
    · rintro st s' ⟨hst, hfollows⟩
      exact ⟨hst, hfollows.wf, hfollows.hashing⟩
  | fork bytes =>
    rw [Operation.run, wp_map, Checked.forkState_eq]
    refine wp_mono (wp_and (wp_forkState hs.wf) (forkState_keeps bytes s)) ?_ ?_
    · rintro e s' ⟨-, hsame⟩
      rw [hsame]
      exact hs
    · rintro st s' ⟨⟨hst, -⟩, hsame⟩
      rw [hsame]
      exact ⟨hst, hs⟩

/-- **One operation** neither panics nor hangs, and leaves a sound engine. -/
theorem Operation.outcome_spec {e : Engine P} (hs : e.Sound) (op : Operation) (t : Nat) :
    (op.outcome io e t).2.Sound ∧ ∀ st, (op.outcome io e t).1 = .error st → st.Clean := by
  have hop : wp (op.run io) (fun _ s' => s'.1.Sound) (fun st s' => st.Clean ∧ s'.1.Sound) (e, t) :=
    wp_operation hs op
  unfold Operation.outcome
  cases hrun : op.run io (e, t) with
  | ok _ s =>
    refine ⟨wp_of_ok hop hrun, ?_⟩
    intro st h
    cases h
  | error st s =>
    have hstop := wp_of_error hop hrun
    refine ⟨hstop.2, ?_⟩
    intro st' h
    obtain rfl := Except.error.inj h
    exact hstop.1

end Operations

/-! ## §4. No panic, ever. -/

/-- An engine that hashes nothing is sound. -/
theorem Engine.Sound.of_fresh {e : Engine P} (hwf : e.WF anyHost) (hh : e.hash = none) : e.Sound :=
  ⟨hwf, .of_none hh⟩

/-- **Every engine a caller can hold is sound.** -/
theorem Driven.sound {e : Engine P} (h : Driven e) : e.Sound := by
  induction h with
  | new h => exact ⟨Engine.wf_new h, (Reachable.new h).hashing⟩
  | openReadOnly h =>
    rw [Checked.openReadOnly_eq] at h
    have hr : Reachable anyHost _ := .openReadOnly (Io.within_any _) h
    exact ⟨hr.wf, hr.hashing⟩
  | fork hd h ih =>
    rw [Checked.forkState_eq] at h
    have hwf := wp_of_ok (wp_forkState (s := (_, _)) ih.wf) h
    have hnone := wp_of_ok (Engine.forkState_hash (s := (_, _))) h
    exact .of_fresh hwf hnone
  | operation hd op io t ih => exact (Operation.outcome_spec ih op t).1

/-- What is never seen of the engine: a panic, or a loop that does not end. -/
structure NeverPanics (P : Primitives) : Prop where
  /-- Whatever stops an operation of any engine a caller can hold, is an error or a dropped
      future. -/
  operation : ∀ e : Engine P, Driven e → ∀ (op : Operation) (io : Io) (t : Nat) (st : Stop),
    (op.outcome io e t).1 = .error st → st ≠ .panic ∧ st ≠ .diverged
  opening : ∀ (io : Io) (source : String) (total : Nat) (readKey : Bytes) (t : Nat) (st : Stop)
    (s : Unit × Nat), Checked.openReadOnly P io source total readKey ((), t) = .error st s →
    st ≠ .panic ∧ st ≠ .diverged
  represented : ∀ e : Engine P, Driven e → e.Represented
  /-- The helpers called above are those whose panics are written out. -/
  openDisk : ∀ (io : Io) (source : String) (total : Nat),
    (Checked.openDisk io source total : Async (Engine P) Unit) = Engine.openDisk io source total
  fileSize : ∀ size, (Checked.fileSize size : Async (Engine P) Nat) = ofResult (fileSize size)
  bounds : ∀ img offset len, Checked.bounds img offset len = Image.bounds img offset len
  unit : ∀ index, (Checked.unit index : Async (Engine P) Bytes) = pure (unit index).val

/-- A clean stop is neither a panic nor a loop. -/
theorem Stop.Clean.ne {st : Stop} (h : st.Clean) : st ≠ .panic ∧ st ≠ .diverged := by
  cases st with
  | error e => simp
  | dropped => simp
  | panic => exact h.elim
  | diverged => exact h.elim

/-- **The disk engine never panics**, for any operations with any arguments, over any host. -/
theorem never_panics (P : Primitives) : NeverPanics P where
  operation := by
    intro e hd op io t st h
    exact ((Operation.outcome_spec hd.sound op t).2 st h).ne
  opening := by
    intro io source total readKey t st s h
    rw [Checked.openReadOnly_eq] at h
    have hclean := wp_of_error (wp_openReadOnly (Io.within_any io)) h
    exact hclean.ne
  represented := fun e hd => hd.sound.wf.represented
  openDisk := Checked.openDisk_eq
  fileSize := Checked.fileSize_eq
  bounds := Checked.bounds_eq
  unit := Checked.unit_eq

end My98.Disk
