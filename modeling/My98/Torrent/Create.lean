/-
  My98.Torrent.Create — a disk file and the torrent built for it
  (`src/torrent/my98_torrent/formats.py`: `validate_disk`;
  `src/torrent/my98_torrent/metadata.py`: `create`).

  The seedbox looks at the header of a disk file before it shares it, and the engine looks at
  the same header when it opens the file.  The bounds are independent constants in three
  languages: what the engine writes must fit the limits the other two were given, up to 1 TiB.

    • `validateDisk_iff`  — the two readers of a header accept the same files;
    • `fileSize_le_limit` — every disk file is within the limit of its component;
    • `create_disk`       — its torrent is built, within 96 MiB, and both languages take it;
    • `layout_agrees`     — all of it, with the spans of the records.
-/
import Mathlib.Algebra.Order.Ring.Nat
import Mathlib.Tactic.Common
import My98.Disk.Layout
import My98.Torrent.Metadata
import My98.Web.TorrentMetadata

namespace My98.Torrent

open My98.Lib My98.Disk

/-! ## §1. `validate_disk`. -/

/-- The checks of `validate_disk` without a public key, on the bytes read at the start of a
    regular file of `total` bytes. -/
def validateDisk (header : Bytes) (total : Nat) : Except Failure Bytes :=
  if header.length ≠ 198 then .error (.publication "Disk must be a readable regular .my98 file")
  else
    let version := leNat (slice header 8 4)
    let chunk := leNat (slice header 12 4)
    let size := leNat (slice header 16 8)
    if slice header 0 8 ≠ ascii "SLOPDSK\x00" ∨ version ≠ 1 ∨ chunk ≠ 65536 then
      .error (.publication "Unsupported .my98 header, version or chunk size")
    else if ¬(1 ≤ size ∧ size ≤ 2 ^ 40) ∨ total ≠ 198 + size + (size + chunk - 1) / chunk * 62 then
      .error (.publication "Invalid .my98 logical or physical size")
    else .ok header

theorem magic_eq : ascii "SLOPDSK\x00" = MAGIC := by decide +kernel

theorem validateDisk_ok {header out : Bytes} {total : Nat} (hlen : header.length = 198) :
    validateDisk header total = .ok out ↔ out = header ∧ slice header 0 8 = MAGIC ∧
      leNat (slice header 8 4) = 1 ∧ leNat (slice header 12 4) = CHUNK ∧
      fileSize (leNat (slice header 16 8)) = .ok total := by
  unfold validateDisk
  rw [if_neg (not_not.mpr hlen)]
  dsimp only
  generalize leNat (slice header 8 4) = version
  generalize leNat (slice header 12 4) = chunk
  generalize leNat (slice header 16 8) = size
  rw [magic_eq]
  by_cases hfields : slice header 0 8 ≠ MAGIC ∨ version ≠ 1 ∨ chunk ≠ 65536
  · rw [if_pos hfields]
    refine iff_of_false (by simp) ?_
    rintro ⟨-, hmagic, hversion, hchunk, -⟩
    rcases hfields with h | h | h
    · exact absurd hmagic h
    · exact absurd hversion h
    · exact absurd hchunk h
  · obtain ⟨hmagic, hversion, hchunk⟩ : slice header 0 8 = MAGIC ∧ version = 1 ∧ chunk = 65536 := by
      simpa using hfields
    rw [if_neg hfields]
    subst hversion hchunk
    rw [(rounded size).1]
    unfold fileSize
    by_cases hbad : ¬(1 ≤ size ∧ size ≤ 2 ^ 40)
    · rw [if_pos (Or.inl hbad), if_pos (by unfold MAX_SIZE; omega)]
      simp
    · rw [if_neg (show ¬(size = 0 ∨ MAX_SIZE < size) by unfold MAX_SIZE; omega)]
      by_cases htotal : total ≠ 198 + size + chunkCount size * 62
      · rw [if_pos (Or.inr htotal)]
        refine iff_of_false (by simp) ?_
        rintro ⟨-, -, -, -, h⟩
        exact absurd (Except.ok.inj h).symm htotal
      · have hsame : HEADER + size + chunkCount size * OVERHEAD = total := (not_not.mp htotal).symm
        rw [if_neg (not_or.mpr ⟨hbad, htotal⟩), hsame]
        simp [hmagic, CHUNK, eq_comm]

/-- What `header_size` asks of a header of 198 bytes. -/
theorem headerSize_iff {header : Bytes} {total size : Nat} (hlen : header.length = 198) :
    headerSize header total = .ok size ↔ slice header 0 8 = MAGIC ∧
      leNat (slice header 8 4) = 1 ∧ leNat (slice header 12 4) = CHUNK ∧
      size = leNat (slice header 16 8) ∧ fileSize size = .ok total := by
  unfold headerSize
  rw [if_neg (by omega)]
  by_cases hmagic : slice header 0 8 ≠ MAGIC
  · rw [if_pos hmagic]
    refine iff_of_false (by simp) ?_
    rintro ⟨h, -⟩
    exact absurd h hmagic
  · rw [if_neg hmagic, if_neg (show ¬header.length ≠ HEADER from not_not.mpr hlen)]
    by_cases hfields : leNat (slice header 8 4) ≠ 1 ∨ leNat (slice header 12 4) ≠ CHUNK
    · rw [if_pos hfields]
      refine iff_of_false (by simp) ?_
      rintro ⟨-, hversion, hchunk, -⟩
      rcases hfields with h | h
      · exact absurd hversion h
      · exact absurd hchunk h
    · rw [if_neg hfields]
      obtain ⟨hversion, hchunk⟩ := not_or.mp hfields
      dsimp only
      cases hsize : fileSize (leNat (slice header 16 8)) with
      | error e =>
        refine iff_of_false (fun h => by cases h) ?_
        rintro ⟨-, -, -, rfl, h⟩
        rw [hsize] at h
        cases h
      | ok expected =>
        show (if expected ≠ total then Except.error (corrupt "Encrypted file length mismatch")
          else Except.ok (leNat (slice header 16 8))) = _ ↔ _
        by_cases htotal : expected ≠ total
        · rw [if_pos htotal]
          refine iff_of_false (by simp) ?_
          rintro ⟨-, -, -, rfl, h⟩
          rw [hsize] at h
          exact absurd (Except.ok.inj h) htotal
        · rw [if_neg htotal]
          constructor
          · intro h
            obtain rfl := Except.ok.inj h
            rw [not_not.mp htotal] at hsize
            exact ⟨not_not.mp hmagic, not_not.mp hversion, not_not.mp hchunk, rfl, hsize⟩
          · rintro ⟨-, -, -, rfl, -⟩
            rfl

/-- **The engine and the seedbox accept the same headers.** -/
theorem validateDisk_iff {header : Bytes} (total : Nat) (hlen : header.length = 198) :
    (∃ size, headerSize header total = .ok size) ↔ ∃ out, validateDisk header total = .ok out := by
  constructor
  · rintro ⟨size, h⟩
    obtain ⟨hmagic, hversion, hchunk, rfl, hsize⟩ := (headerSize_iff hlen).mp h
    exact ⟨header, (validateDisk_ok hlen).mpr ⟨rfl, hmagic, hversion, hchunk, hsize⟩⟩
  · rintro ⟨out, h⟩
    obtain ⟨-, hmagic, hversion, hchunk, hsize⟩ := (validateDisk_ok hlen).mp h
    exact ⟨_, (headerSize_iff hlen).mpr ⟨hmagic, hversion, hchunk, rfl, hsize⟩⟩

/-! ## §2. Limits. -/

/-- **A disk file is within the limit of its component**, in both tables. -/
theorem fileSize_le_limit {size total : Nat} (h : fileSize size = .ok total) :
    1 ≤ total ∧ total ≤ Component.disk.limit ∧ total ≤ Web.Metadata.limits .disk := by
  obtain ⟨hpos, hle, rfl⟩ := fileSize_ok h
  have hcount : chunkCount size ≤ 2 ^ 24 := by
    simp only [chunkCount, divCeil, CHUNK, MAX_SIZE] at *
    omega
  simp only [Component.limit, Web.Metadata.limits, HEADER, OVERHEAD, MAX_SIZE] at *
  omega

/-! ## §3. `create`. -/

/-- `while piece := stream.read(PIECE): hashes.extend(sha1(piece).digest())`. -/
def pieceHashes (sha1 : Bytes → Bytes) : Nat → Bytes → Bytes
  | 0, _ => []
  | fuel + 1, rest =>
    if rest = [] then []
    else sha1 (rest.take pieceLength) ++ pieceHashes sha1 fuel (rest.drop pieceLength)

/-- `lt.bencode({b"info": {…}})`. -/
def torrentOf (sha1 : Bytes → Bytes) (file : Bytes) (kind : Component) : Bytes :=
  (Ben.dict [(ascii "info",
    infoDict file.length kind (pieceHashes sha1 file.length file))]).encode

def create (lt : LibTorrent) (sha1 : Bytes → Bytes) (file : Bytes) (kind : Component) :
    Except Failure (String × Bytes) :=
  if 1 ≤ file.length ∧ file.length ≤ kind.limit then do
    let data := torrentOf sha1 file kind
    let parsed ← inspect lt sha1 data none (some kind)
    return (parsed.infoHash, data)
  else .error (.publication "Invalid component size")

/-- Twenty bytes for each piece. -/
theorem length_pieceHashes {sha1 : Bytes → Bytes} (hsha : ∀ b, (sha1 b).length = 20) :
    ∀ (fuel : Nat) (rest : Bytes), rest.length ≤ fuel →
      (pieceHashes sha1 fuel rest).length = 20 * pieceCount rest.length := by
  intro fuel
  induction fuel with
  | zero =>
    intro rest h
    have hnil : rest = [] := List.eq_nil_of_length_eq_zero (by omega)
    subst hnil
    rfl
  | succ fuel ih =>
    intro rest h
    unfold pieceHashes
    by_cases hnil : rest = []
    · subst hnil
      rfl
    · have hpos := List.length_pos_iff.mpr hnil
      rw [if_neg hnil, List.length_append, hsha, ih _ (by
        rw [List.length_drop]
        simp only [pieceLength]
        omega), List.length_drop]
      simp only [pieceCount, pieceLength]
      omega

/-- The decimals of a number. -/
theorem length_decimalText {n k : Nat} (hk : 0 < k) (h : n < 10 ^ k) :
    (decimalText n).length ≤ k := by
  unfold decimalText
  rw [List.length_map]
  exact (Nat.length_toDigits_le_iff (by omega) hk).mpr h

theorem length_netstring {b : Bytes} {k : Nat} (hk : 0 < k) (h : b.length < 10 ^ k) :
    (netstring b).length ≤ k + 1 + b.length := by
  have hdigits := length_decimalText hk h
  unfold netstring
  rw [List.length_append, List.length_cons]
  omega

theorem length_encode_int {n : Nat} {k : Nat} (hk : 0 < k) (h : n < 10 ^ k) :
    (Ben.int n).encode.length ≤ k + 2 := by
  have hdigits := length_decimalText hk h
  simp only [Ben.encode, Ben.intText]
  rw [if_neg (by omega), Int.natAbs_natCast]
  simp only [List.length_append, List.length_cons, List.length_nil]
  omega

/-- Little stands around the piece hashes. -/
theorem length_framed_infoDict {size : Nat} {k : Component} {pieces : Bytes}
    (hsize : size < 10 ^ 15) (hpieces : pieces.length < 10 ^ 15) :
    (framed (infoDict size k pieces).encode).length ≤ pieces.length + 200 := by
  have hint := length_encode_int (by decide) hsize
  have hstr := length_netstring (by decide) hpieces
  have hpl : (Ben.int (pieceLength : Nat)).encode.length = 8 := by decide +kernel
  have hname : (netstring (ascii k.fileName)).length ≤ 20 := by
    cases k <;> decide +kernel
  have hkeys : (netstring (ascii "length")).length = 8 ∧ (netstring (ascii "name")).length = 6 ∧
      (netstring (ascii "piece length")).length = 15 ∧ (netstring (ascii "pieces")).length = 8 := by
    decide +kernel
  have hframe : (ascii "d4:info").length = 7 ∧ (ascii "e").length = 1 := by decide +kernel
  obtain ⟨h₁, h₂, h₃, h₄⟩ := hkeys
  obtain ⟨h₅, h₆⟩ := hframe
  have hdict : (infoDict size k pieces).encode.length =
      2 + ((netstring (ascii "length")).length + (Ben.int size).encode.length +
        ((netstring (ascii "name")).length + (netstring (ascii k.fileName)).length) +
        ((netstring (ascii "piece length")).length + (Ben.int (pieceLength : Nat)).encode.length) +
        ((netstring (ascii "pieces")).length + (netstring pieces).length)) := by
    simp only [infoDict, infoEntries, Ben.encode, Ben.encodeEntries, List.length_append,
      List.length_cons, List.length_nil]
    omega
  unfold framed
  rw [List.length_append, List.length_append, hdict]
  omega

theorem torrentOf_eq (sha1 : Bytes → Bytes) (file : Bytes) (kind : Component) :
    torrentOf sha1 file kind =
      framed (infoDict file.length kind (pieceHashes sha1 file.length file)).encode := by
  rw [torrentOf, framed_eq]
  simp [Ben.encode, Ben.encodeEntries]

/-- Without an infohash to compare with, `inspect` compares with the one it computes. -/
theorem inspect_none {lt : LibTorrent} {sha1 : Bytes → Bytes} {data : Bytes}
    {kind : Option Component} {r : Report} {entries : List (Bytes × Ben)}
    (hdecode : lt.bdecode data = some (.dict [(ascii "info", .dict entries)]))
    (hvalid : (unhex (hex (sha1 (Ben.dict entries).encode)) 20).isSome = true)
    (h : inspect lt sha1 data (some (hex (sha1 (Ben.dict entries).encode))) kind = .ok r) :
    inspect lt sha1 data none kind = .ok r := by
  have hsame : inspectInfo sha1 (.dict entries) none kind =
      inspectInfo sha1 (.dict entries) (some (hex (sha1 (Ben.dict entries).encode))) kind := by
    have hhash : inspectHash (hex (sha1 (Ben.dict entries).encode))
        (some (hex (sha1 (Ben.dict entries).encode))) = .ok () := by
      obtain ⟨u, hu⟩ := inspectHash_ok.mpr ⟨hvalid, rfl⟩
      exact hu
    unfold inspectInfo
    rw [hhash]
    rfl
  have hget : (Ben.dict [(ascii "info", .dict entries)]).get? (ascii "info")
      = some (.dict entries) := by
    simp [Ben.get?]
  rw [← h]
  unfold inspect inspectValue
  rw [hdecode]
  dsimp only
  rw [hget]
  cases decide ((Ben.dict [(ascii "info", .dict entries)]).encode = data) with
  | false => rfl
  | true =>
    dsimp only
    rw [hsame]

/-- **The torrent of a disk file is built and taken**, whatever the size of the disk. -/
theorem create_disk {lt : LibTorrent} (hlt : lt.Lawful) {sha1 : Bytes → Bytes}
    (hsha : ∀ b, (sha1 b).length = 20) {size : Nat} {file : Bytes}
    (hsize : fileSize size = .ok file.length) :
    ∃ infoHash data, create lt sha1 file .disk = .ok (infoHash, data) ∧
      data.length ≤ 96 * 1024 * 1024 ∧
      inspect lt sha1 data (some infoHash) (some .disk) =
        .ok ⟨infoHash, .disk, "disk.my98", file.length, pieceCount file.length⟩ ∧
      Web.Metadata.verifyMetadata sha1 data infoHash (some .disk) =
        .ok ⟨infoHash, .disk, "disk.my98", file.length, pieceCount file.length⟩ := by
  obtain ⟨hpos, hlimit, -⟩ := fileSize_le_limit hsize
  have hcount := length_pieceHashes hsha file.length file le_rfl
  have hfits : Fits (some .disk) file.length .disk (pieceHashes sha1 file.length file) :=
    ⟨hpos, hlimit, rfl, hcount⟩
  have hsmall : file.length < 10 ^ 15 := by
    simp only [Component.limit] at hlimit
    omega
  have hbytes : (pieceHashes sha1 file.length file).length ≤ 83996000 := by
    rw [hcount]
    simp only [pieceCount, pieceLength, Component.limit] at *
    omega
  have hlen : (torrentOf sha1 file .disk).length ≤ metadataLimit (some .disk) := by
    have hframed := length_framed_infoDict (k := .disk) hsmall
      (show (pieceHashes sha1 file.length file).length < 10 ^ 15 by omega)
    rw [torrentOf_eq]
    simp only [metadataLimit, if_neg (show ¬(some Component.disk = some .descriptor) by decide)]
    omega
  have hdigest := hsha (infoDict file.length .disk (pieceHashes sha1 file.length file)).encode
  have hvalid := Web.Metadata.digest_valid hdigest
  rw [torrentOf_eq] at hlen
  have hinspect := inspect_complete hlt hfits hvalid rfl hlen
  have hverify : Web.Metadata.verifyMetadata sha1 _ _ (some .disk) = _ :=
    Web.Metadata.verify_canonical hfits hvalid rfl hlen
  refine ⟨hex (sha1 (infoDict file.length .disk (pieceHashes sha1 file.length file)).encode),
    torrentOf sha1 file .disk, ?_, ?_, ?_, ?_⟩
  · have hdecode := hlt.decodes _ (canonical_alone file.length .disk
      (pieceHashes sha1 file.length file)) (small_info hfits)
    have hnone : inspect lt sha1 (torrentOf sha1 file .disk) none (some .disk) = _ :=
      inspect_none hdecode hvalid (by rw [torrentOf_eq]; exact hinspect)
    unfold create
    rw [if_pos ⟨hpos, hlimit⟩]
    dsimp only
    rw [hnone]
    rfl
  · rw [torrentOf_eq]
    exact hlen
  · rw [torrentOf_eq]
    exact hinspect
  · rw [torrentOf_eq]
    exact hverify

/-! ## §4. One layout. -/

/-- What the three languages agree on. -/
structure LayoutAgrees (lt : LibTorrent) (sha1 : Bytes → Bytes) : Prop where
  /-- The records of every image fill its file. -/
  spans : ∀ size, 1 ≤ size → size ≤ 2 ^ 40 →
    ∃ total, fileSize size = .ok total ∧ Spans size total
  /-- No number on the way overflows, and JavaScript holds it exactly. -/
  numbers : ∀ size i, size ≤ 2 ^ 40 → i < chunkCount size →
    (∀ n ∈ intermediates size i, n < 2 ^ 53 ∧ n < 2 ^ 64 ∧ double (n : ℚ) = some (n : ℚ)) ∧
      ∀ n ∈ lengths size i, n < 2 ^ 32
  /-- The number of records is the same however it is rounded up. -/
  rounded : ∀ size : Nat, (size + 65536 - 1) / 65536 = chunkCount size ∧
    ⌈(size : ℚ) / 65536⌉ = chunkCount size
  headers : ∀ (header : Bytes) (total : Nat), header.length = 198 →
    ((∃ size, headerSize header total = .ok size) ↔
      ∃ out, validateDisk header total = .ok out)
  limits : ∀ size total, fileSize size = .ok total →
    total ≤ Component.disk.limit ∧ total ≤ Web.Metadata.limits .disk
  metadata : ∀ (size : Nat) (file : Bytes), fileSize size = .ok file.length →
    ∃ infoHash data, create lt sha1 file .disk = .ok (infoHash, data) ∧
      data.length ≤ 96 * 1024 * 1024 ∧
      inspect lt sha1 data (some infoHash) (some .disk) =
        .ok ⟨infoHash, .disk, "disk.my98", file.length, pieceCount file.length⟩ ∧
      Web.Metadata.verifyMetadata sha1 data infoHash (some .disk) =
        .ok ⟨infoHash, .disk, "disk.my98", file.length, pieceCount file.length⟩

/-- **The layout agrees everywhere**, for every size up to 1 TiB. -/
theorem layout_agrees {lt : LibTorrent} (hlt : lt.Lawful) {sha1 : Bytes → Bytes}
    (hsha : ∀ b, (sha1 b).length = 20) : LayoutAgrees lt sha1 where
  spans := by
    intro size hpos hle
    have hsize : fileSize size = .ok (HEADER + size + chunkCount size * OVERHEAD) := by
      unfold fileSize MAX_SIZE
      rw [if_neg (by omega)]
    exact ⟨_, hsize, Disk.spans hsize⟩
  numbers := by
    intro size i hle hi
    refine ⟨fun n hn => ?_, lengths_lt size i⟩
    have hlt53 := intermediates_lt hle hi n hn
    exact ⟨hlt53, by omega, double_exact hlt53⟩
  rounded := Disk.rounded
  headers := fun _ total hlen => validateDisk_iff total hlen
  limits := fun _ _ h => (fileSize_le_limit h).2
  metadata := fun _ _ h => create_disk hlt hsha h

/-- 265 empty bytes, which is the length of a disk file of five bytes, with the SHA-1 of the
    file and of the dictionary of its torrent. -/
def fiveDisk : Bytes := List.replicate 265 0

def fivePiece : Bytes :=
  [114, 151, 13, 130, 182, 106, 225, 75, 141, 212, 11, 236, 60, 155, 255, 184, 218, 147, 163, 31]

def fiveInfo : Bytes :=
  [166, 188, 227, 54, 18, 10, 64, 216, 36, 20, 24, 0, 56, 101, 50, 74, 182, 237, 15, 170]

def fiveSha1 (b : Bytes) : Bytes := if b = fiveDisk then fivePiece else fiveInfo

theorem fiveSha1_length (b : Bytes) : (fiveSha1 b).length = 20 := by
  unfold fiveSha1
  split <;> rfl

/-- Its torrent is built and taken. -/
theorem layout_agrees_five :
    fileSize 5 = .ok fiveDisk.length ∧ ∃ infoHash data,
      create canonicalTorrent fiveSha1 fiveDisk .disk = .ok (infoHash, data) ∧
        data.length ≤ 96 * 1024 * 1024 := by
  have hsize : fileSize 5 = .ok fiveDisk.length := by decide +kernel
  obtain ⟨infoHash, data, hcreate, hlen, -⟩ :=
    (layout_agrees canonicalTorrent_lawful fiveSha1_length).metadata 5 fiveDisk hsize
  exact ⟨hsize, infoHash, data, hcreate, hlen⟩

end My98.Torrent
