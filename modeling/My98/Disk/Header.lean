/-
  My98.Disk.Header — the layout of a `.my98` file and its signed header
  (`src/disk/src/lib.rs`: `file_size`, `unit`, `make_header`, `header_size`,
  `parse_header`, `verify_header`).

  A file is a 198-byte header and one envelope per 64 KiB chunk of the image, the last
  chunk being shorter.  Header: magic(8), version LE32, chunk size LE32, image size LE64,
  the 110-byte sealed descriptor, and the owner's signature over the first 134 bytes.

  Main results: `makeHeader_fields` and `parseHeader_makeHeader` — a header the encoder
  produced is accepted, with its disk and its size, by whoever holds the master key.
-/
import My98.Crypto.Identity
import My98.Disk.Async

namespace My98.Disk

open My98.Lib My98.Crypto

/-! ## §1. Sizes. -/

def CHUNK : Nat := 65536
def HEADER : Nat := 198
def OVERHEAD : Nat := 62
def MAX_SIZE : Nat := 2 ^ 40
def MAGIC : Bytes := ascii "SLOPDSK\x00"
def DOMAIN : Bytes := ascii "slop86/linear-disk/v1\x00"

/-- `u64::div_ceil`. -/
def divCeil (a b : Nat) : Nat := (a + (b - 1)) / b

/-- The number of chunks of an image of `size` bytes. -/
def chunkCount (size : Nat) : Nat := divCeil size CHUNK

/-- The length of chunk `i`: `(size - start).min(CHUNK)`. -/
def chunkLen (size i : Nat) : Nat := min (size - i * CHUNK) CHUNK

/-- Where record `i` starts in the file. -/
def recordOffset (i : Nat) : Nat := HEADER + i * (CHUNK + OVERHEAD)

def fileSize (size : Nat) : Except Error Nat :=
  if size = 0 ∨ MAX_SIZE < size then
    .error (corrupt "Image length must be between 1 byte and 1 TiB")
  else .ok (HEADER + size + chunkCount size * OVERHEAD)

theorem fileSize_ok {size total : Nat} (h : fileSize size = .ok total) :
    0 < size ∧ size ≤ MAX_SIZE ∧ total = HEADER + size + chunkCount size * OVERHEAD := by
  unfold fileSize at h
  split at h
  · cases h
  · injection h with h
    omega

/-- Chunk `i` exists exactly when it starts below the image size. -/
theorem lt_chunkCount {size i : Nat} : i < chunkCount size ↔ i * CHUNK < size := by
  unfold chunkCount divCeil CHUNK
  omega

/-- The offset of an existing record is far from overflowing. -/
theorem mul_stride_lt {size i : Nat} (hsize : size ≤ MAX_SIZE) (hi : i * CHUNK < size) :
    i * (CHUNK + OVERHEAD) < 2 ^ 64 := by
  have hstride : i * (CHUNK + OVERHEAD) ≤ 2 * (i * CHUNK) := by
    rw [Nat.mul_add, Nat.two_mul]
    exact Nat.add_le_add_left (Nat.mul_le_mul_left i (by decide)) _
  have hmax : MAX_SIZE < 2 ^ 63 := by decide
  generalize i * CHUNK = start at hi hstride
  omega

/-- The 96-bit little-endian unit id of chunk `index`. -/
def unit (index : Nat) : Block 12 :=
  ⟨leBytes 8 index ++ List.replicate 4 0, by simp⟩

/-! ## §2. Encoding and parsing the header. -/

def signed (bytes : Bytes) : Bytes := DOMAIN ++ bytes

/-- The 24 plain bytes of a header. -/
def headerFields (size : Nat) : Bytes :=
  MAGIC ++ leBytes 4 1 ++ leBytes 4 CHUNK ++ leBytes 8 size

variable {P : Primitives}

def makeHeader (id : Identity P) (random : Option (Block 32)) (disk : Crypto.Disk) (size : Nat) :
    Except Error Bytes := do
  let _ ← fileSize size
  let descriptor ← (id.sealDescriptor random disk).mapError operation
  let b := headerFields size ++ descriptor
  if b.length ≠ 134 then .error (corrupt "Descriptor length mismatch")
  else do
    let signature ← (id.sign (signed b)).mapError operation
    pure (b ++ signature)

def headerSize (b : Bytes) (total : Nat) : Except Error Nat :=
  if b.length < 8 then .error (corrupt "Truncated disk header")
  else if slice b 0 8 ≠ MAGIC then
    .error ⟨"UNSUPPORTED_FORMAT",
      "Unsupported disk format. CAR histories v1/v2/v3 are not supported; create a new disk from an image."⟩
  else if b.length ≠ HEADER then .error (corrupt "Truncated disk header")
  else if leNat (slice b 8 4) ≠ 1 ∨ leNat (slice b 12 4) ≠ CHUNK then
    .error ⟨"UNSUPPORTED_FORMAT", "Unsupported linear disk format"⟩
  else do
    let size := leNat (slice b 16 8)
    let expected ← fileSize size
    if expected ≠ total then .error (corrupt "Encrypted file length mismatch")
    else pure size

def verifyHeader (P : Primitives) (publicKey b : Bytes) : Except Error Unit :=
  if verify P publicKey (signed (slice b 0 134)) (b.drop 134) then .ok ()
  else .error (corrupt "Invalid disk header signature")

def parseHeader (id : Identity P) (b : Bytes) (total : Nat) : Except Error (Crypto.Disk × Nat) := do
  let size ← headerSize b total
  let disk ← (id.openDisk (slice b 24 110)).mapError fun _ =>
    ⟨"AUTHENTICATION_FAILED", "Credentials are incorrect or the encrypted descriptor is damaged"⟩
  let publicKey ← id.publicKeyBytes.mapError operation
  verifyHeader P publicKey b
  pure (disk, size)

/-! ## §3. Accepted headers. -/

/-- A size that passed `headerSize` is a legal image size and fixes the file length. -/
theorem headerSize_ok {b : Bytes} {total size : Nat} (h : headerSize b total = .ok size) :
    b.length = HEADER ∧ fileSize size = .ok total := by
  unfold headerSize at h
  split at h
  · cases h
  · split at h
    · cases h
    · split at h
      · cases h
      next hlen =>
        split at h
        · cases h
        · obtain ⟨expected, hfs, h⟩ := ok_of_bind h
          split at h
          · cases h
          next heq =>
            injection h with h
            subst h
            rw [hfs]
            exact ⟨by omega, by congr 1; omega⟩

theorem parseHeader_ok {id : Identity P} {b : Bytes} {total : Nat} {r : Crypto.Disk × Nat}
    (h : parseHeader id b total = .ok r) : headerSize b total = .ok r.2 := by
  unfold parseHeader at h
  obtain ⟨size, hsize, h⟩ := ok_of_bind h
  obtain ⟨disk, _, h⟩ := ok_of_bind h
  obtain ⟨publicKey, _, h⟩ := ok_of_bind h
  obtain ⟨_, _, h⟩ := ok_of_bind h
  injection h with h
  subst h
  exact hsize

/-! ## §4. What the encoder writes, the parsers accept. -/

theorem mapError_eq_ok {ε ε' α : Type} {f : ε → ε'} {x : Except ε α} {a : α}
    (h : x.mapError f = .ok a) : x = .ok a := by
  cases x with
  | error e => cases h
  | ok b =>
    injection h with h
    rw [h]

theorem length_headerFields (size : Nat) : (headerFields size).length = 24 := by
  have hm : MAGIC.length = 8 := by decide
  simp [headerFields, hm]

/-- The three parts of a header the encoder returned. -/
theorem makeHeader_ok (hP : P.Sound) {id : Identity P} {random : Option (Block 32)}
    {disk : Crypto.Disk} {size : Nat} {b : Bytes} (h : makeHeader id random disk size = .ok b) :
    ∃ total descriptor signature, fileSize size = .ok total
      ∧ id.sealDescriptor random disk = .ok descriptor ∧ descriptor.length = 110
      ∧ id.sign (signed (headerFields size ++ descriptor)) = .ok signature
      ∧ signature.length = 64 ∧ b = headerFields size ++ descriptor ++ signature := by
  unfold makeHeader at h
  obtain ⟨total, htotal, h⟩ := ok_of_bind h
  obtain ⟨descriptor, hd, h⟩ := ok_of_bind h
  have hd := mapError_eq_ok hd
  dsimp only at h
  split at h
  · cases h
  · obtain ⟨signature, hs, h⟩ := ok_of_bind h
    have hs := mapError_eq_ok hs
    injection h with h
    exact ⟨total, descriptor, signature, htotal, hd,
      (Identity.openDescriptor_sealDescriptor hP hd).2, hs, (Identity.verify_sign hP hs).2, h.symm⟩

theorem length_makeHeader (hP : P.Sound) {id : Identity P} {random : Option (Block 32)}
    {disk : Crypto.Disk} {size : Nat} {b : Bytes} (h : makeHeader id random disk size = .ok b) :
    b.length = HEADER := by
  obtain ⟨_, descriptor, signature, _, _, hd, _, hs, rfl⟩ := makeHeader_ok hP h
  simp [length_headerFields, hd, hs, HEADER]

/-- The fields at the offsets where every parser of the format looks for them. -/
theorem makeHeader_fields (hP : P.Sound) {id : Identity P} {random : Option (Block 32)}
    {disk : Crypto.Disk} {size total : Nat} {b : Bytes}
    (h : makeHeader id random disk size = .ok b) (htotal : fileSize size = .ok total) :
    headerSize b total = .ok size ∧ openDescriptor P id.masterKey id.publicKey (slice b 24 110)
        = .ok disk ∧ verifyHeader P id.publicKey.val b = .ok () := by
  obtain ⟨_, descriptor, signature, _, hd, hdlen, hs, hslen, rfl⟩ := makeHeader_ok hP h
  obtain ⟨hpos, hmax, _⟩ := fileSize_ok htotal
  have hf := length_headerFields size
  have hm : MAGIC.length = 8 := by decide
  -- a range inside the 24 plain bytes is a range of `headerFields`
  have hplain : ∀ off n, off + n ≤ 24 →
      slice (headerFields size ++ descriptor ++ signature) off n = slice (headerFields size) off n := by
    intro off n hn
    rw [slice_append_left (by simp [hf]; omega), slice_append_left (by omega)]
  have hmagic : slice (headerFields size) 0 8 = MAGIC := by
    rw [headerFields, List.append_assoc, List.append_assoc, slice_append_left (by omega),
      slice_self hm]
  have hversion : slice (headerFields size) 8 4 = leBytes 4 1 := by
    rw [headerFields, List.append_assoc, List.append_assoc, slice_append_right (by omega), hm,
      slice_append_left (by simp), slice_self (by simp)]
  have hchunk : slice (headerFields size) 12 4 = leBytes 4 CHUNK := by
    rw [headerFields, List.append_assoc, slice_append_right (by simp [hm]),
      slice_append_left (by simp [hm]), List.length_append, hm, length_leBytes,
      slice_self (by simp)]
  have hsize : slice (headerFields size) 16 8 = leBytes 8 size := by
    rw [headerFields, slice_append_right (by simp [hm]), List.length_append, List.length_append, hm,
      length_leBytes, length_leBytes, slice_self (by simp)]
  refine ⟨?_, ?_, ?_⟩
  · unfold headerSize
    rw [if_neg (by simp [hf]; omega), if_neg (by rw [hplain 0 8 (by omega), hmagic]; simp),
      if_neg (by simp [hf, hdlen, hslen, HEADER]),
      if_neg (by rw [hplain 8 4 (by omega), hplain 12 4 (by omega), hversion, hchunk]; decide)]
    simp only [hplain 16 8 (by omega), hsize]
    rw [leNat_leBytes 8 size (by simp only [MAX_SIZE] at hmax; omega), htotal]
    simp [bind, Except.bind, pure, Except.pure]
  · rw [List.append_assoc, slice_append_right (by omega), hf, slice_append_left (by omega),
      slice_self hdlen]
    exact (Identity.openDescriptor_sealDescriptor hP hd).1
  · unfold verifyHeader
    rw [slice_append_left (by simp [hf, hdlen]), slice_self (by simp [hf, hdlen]),
      List.drop_left' (by simp [hf, hdlen]), (Identity.verify_sign hP hs).1]
    rfl

/-- **The owner parses his own header back.** -/
theorem parseHeader_makeHeader (hP : P.Sound) {id : Identity P} {random : Option (Block 32)}
    {disk : Crypto.Disk} {size total : Nat} {b : Bytes} (hact : id.active = true)
    (h : makeHeader id random disk size = .ok b) (htotal : fileSize size = .ok total) :
    parseHeader id b total = .ok (disk, size) := by
  obtain ⟨hsize, hdisk, hverify⟩ := makeHeader_fields hP h htotal
  have hcheck : id.check = .ok () := by unfold Identity.check; rw [if_pos hact]
  have hopen : id.openDisk (slice b 24 110) = .ok disk := by
    unfold Identity.openDisk
    rw [hcheck]
    exact hdisk
  have hkey : id.publicKeyBytes = .ok id.publicKey.val := by
    unfold Identity.publicKeyBytes
    rw [hcheck]
    rfl
  unfold parseHeader
  rw [hsize, hopen, hkey]
  show (verifyHeader P id.publicKey.val b >>= _) = _
  rw [hverify]
  rfl

end My98.Disk
