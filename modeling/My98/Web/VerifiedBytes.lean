/-
  My98.Web.VerifiedBytes — the progress that a torrent reports
  (`WindowTorrents.describe` of `src/disk/web/torrent-window.js`).

  The count goes by whole bytes of the bitfield, with a table of their bits and a mask for the last
  one, and then the last piece is corrected by what it is short of.  The bitfield itself belongs to
  the torrent library: its buffer may have any length, with anything after the last piece.

    • `bitCounts_masked`    — the table, under the mask of the last byte;
    • `verifiedPieces_eq`   — the loop counts the pieces that are verified;
    • `verified_bytes`      — the sum of the lengths of these pieces.
-/
import Mathlib
import My98.Web.StartupTargets

namespace My98.Web.Startup

open My98.Lib

/-! ## §1. The code. -/

/-- The loop of `bitCounts`: it takes away the lowest bit until none is left. -/
def countBits : Nat → Nat → Nat
  | 0, _ => 0
  | fuel + 1, value => if value = 0 then 0 else 1 + countBits fuel (value &&& (value - 1))

def bitCounts : List Nat := (List.range 256).map (countBits 8)

/-- `torrent.bitfield`. -/
structure Bitfield where
  buffer : Bytes
  get : ℤ → Bool

/-- What `describe` reads of `torrent`. -/
structure TorrentStatus where
  bitfield : Option Bitfield
  downloaded : Nat

/-- What `describe` reads of `entry`. -/
structure TorrentEntry where
  infoHash : String
  kind : String
  filename : String
  size : Nat
  pieces : Nat
  torrent : Option TorrentStatus
  receivedData : Option Nat

structure Description where
  infoHash : String
  kind : String
  filename : String
  size : Nat
  pieces : Nat
  downloaded : Nat
  coveredBytes : ℤ
  complete : Bool
  received : Nat

/-- `Math.ceil(n/d)`. -/
def ceilDiv (n d : Nat) : Nat := (n + (d - 1)) / d

/-- The bits of a byte that are pieces. -/
def pieceMask (pieces index : Nat) : Nat :=
  if index = ceilDiv pieces 8 - 1 ∧ pieces % 8 ≠ 0 then 255 <<< (8 - pieces % 8) else 255

/-- `verified`, after the loop. -/
def verifiedPieces (pieces : Nat) (bytes : Bytes) : Nat :=
  (List.range (ceilDiv pieces 8)).foldl
    (fun verified index =>
      verified + bitCounts.getD ((bytes[index]?.getD 0).toNat &&& pieceMask pieces index) 0)
    0

def coveredBytes (size pieces : Nat) (bits : Option Bitfield) : ℤ :=
  let verified : Nat :=
    match bits with
    | some bits => verifiedPieces pieces bits.buffer
    | none => 0
  let last : Bool := bits.any fun bits => bits.get ((pieces : ℤ) - 1)
  verified * 262144 - if last then (pieces : ℤ) * 262144 - size else 0

def describe (entry : TorrentEntry) : Description :=
  let covered := coveredBytes entry.size entry.pieces (entry.torrent.bind (·.bitfield))
  { infoHash := entry.infoHash, kind := entry.kind, filename := entry.filename, size := entry.size,
    pieces := entry.pieces, downloaded := (entry.torrent.map (·.downloaded)).getD 0,
    coveredBytes := covered, complete := decide (covered = entry.size),
    received := entry.receivedData.getD 0 }

/-! ## §2. Bits of a buffer. -/

/-- Bit `i` of a buffer, the highest of a byte first; there are none after the end. -/
def bitAt (buffer : Bytes) (i : Nat) : Bool := (buffer[i / 8]?.getD 0).toNat.testBit (7 - i % 8)

/-- What the library promises of `get`: whether the bit is set. -/
def Bitfield.Lawful (bits : Bitfield) : Prop :=
  ∀ i : ℤ, bits.get i = (decide (0 ≤ i) && bitAt bits.buffer i.toNat)

/-- The pieces that are verified. -/
def verifiedSet (pieces : Nat) (buffer : Bytes) : Finset Nat :=
  (Finset.range pieces).filter fun i => bitAt buffer i = true

/-- **The table**: the bits of a byte without the last `8 - n`. -/
theorem bitCounts_masked : ∀ v < 256, ∀ n ≤ 8, bitCounts.getD (v &&& 255 <<< (8 - n)) 0 =
    ((List.range n).filter fun k => v.testBit (7 - k)).length := by
  decide +kernel

/-- How many of the bits of byte `index` are pieces. -/
def bitsOf (pieces index : Nat) : Nat := min 8 (pieces - 8 * index)

theorem pieceMask_eq {pieces index : Nat} (h : index < ceilDiv pieces 8) :
    pieceMask pieces index = if bitsOf pieces index = 8 then 255 else
      255 <<< (8 - bitsOf pieces index) := by
  unfold ceilDiv at h
  unfold pieceMask bitsOf ceilDiv
  by_cases hlast : index = (pieces + (8 - 1)) / 8 - 1 ∧ pieces % 8 ≠ 0
  · rw [if_pos hlast, if_neg (by omega), show min 8 (pieces - 8 * index) = pieces % 8 by omega]
  · rw [if_neg hlast, if_pos (by omega)]

/-- One turn of the loop. -/
theorem count_byte {pieces index : Nat} (bytes : Bytes) (h : index < ceilDiv pieces 8) :
    bitCounts.getD ((bytes[index]?.getD 0).toNat &&& pieceMask pieces index) 0 =
      ((List.range (bitsOf pieces index)).filter fun k => bitAt bytes (8 * index + k)).length := by
  have hv := (bytes[index]?.getD 0).toNat_lt
  have hmask : (bytes[index]?.getD 0).toNat &&& pieceMask pieces index =
      (bytes[index]?.getD 0).toNat &&& 255 <<< (8 - bitsOf pieces index) := by
    rw [pieceMask_eq h]
    split
    next height =>
      rw [height]
      rfl
    · rfl
  rw [hmask, bitCounts_masked _ hv (bitsOf pieces index) (Nat.min_le_left _ _)]
  refine congrArg List.length (List.filter_congr fun k hk => ?_)
  have hk8 : k < 8 := (List.mem_range.mp hk).trans_le (Nat.min_le_left _ _)
  unfold bitAt
  rw [show (8 * index + k) / 8 = index by omega, show (8 * index + k) % 8 = k by omega]

/-- The pieces of the first bytes. -/
theorem card_verifiedSet_add (a n : Nat) (buffer : Bytes) : (verifiedSet (a + n) buffer).card =
    (verifiedSet a buffer).card + ((List.range n).filter fun k => bitAt buffer (a + k)).length := by
  have hcard : ∀ m, (verifiedSet m buffer).card = ((List.range m).filter fun i => bitAt buffer i).length := by
    intro m
    show ((List.range m).filter fun i => decide (bitAt buffer i = true)).length = _
    simp only [Bool.decide_eq_true]
  rw [hcard, hcard, List.range_add, List.filter_append, List.length_append, List.filter_map,
    List.length_map]
  rfl

/-- **The loop** counts the pieces that are verified. -/
theorem verifiedPieces_eq (pieces : Nat) (bytes : Bytes) :
    verifiedPieces pieces bytes = (verifiedSet pieces bytes).card := by
  have hloop : ∀ m ≤ ceilDiv pieces 8, (List.range m).foldl
      (fun verified index =>
        verified + bitCounts.getD ((bytes[index]?.getD 0).toNat &&& pieceMask pieces index) 0) 0 =
      (verifiedSet (min pieces (8 * m)) bytes).card := by
    intro m
    induction m with
    | zero =>
      intro _
      rw [Nat.mul_zero, Nat.min_zero]
      rfl
    | succ m ih =>
      intro hm
      have hlow : min pieces (8 * m) = 8 * m := by
        unfold ceilDiv at hm
        omega
      have hhigh : min pieces (8 * (m + 1)) = 8 * m + bitsOf pieces m := by
        unfold bitsOf ceilDiv at *
        omega
      rw [List.range_succ, List.foldl_append, ih (Nat.le_of_succ_le hm), hlow, hhigh,
        card_verifiedSet_add, ← count_byte bytes hm]
      rfl
  have hall : min pieces (8 * ceilDiv pieces 8) = pieces := by
    unfold ceilDiv
    omega
  have hend := hloop (ceilDiv pieces 8) (Nat.le_refl _)
  rw [hall] at hend
  exact hend

/-! ## §3. Bytes. -/

/-- The length of a piece. -/
def pieceSize (size i : Nat) : ℤ := min 262144 ((size : ℤ) - 262144 * i)

section Sizes

variable {size pieces : Nat}

/-- Every piece is whole, but for what the last one is short of. -/
theorem pieceSize_eq (h : pieces = ceilDiv size 262144) {i : Nat} (hi : i < pieces) :
    pieceSize size i = 262144 - if i = pieces - 1 then (pieces : ℤ) * 262144 - size else 0 := by
  unfold ceilDiv at h
  unfold pieceSize
  split
  · omega
  · omega

theorem pieceSize_pos (h : pieces = ceilDiv size 262144) {i : Nat} (hi : i < pieces) :
    0 < pieceSize size i := by
  unfold ceilDiv at h
  unfold pieceSize
  omega

theorem mem_verifiedSet {buffer : Bytes} {i : Nat} :
    i ∈ verifiedSet pieces buffer ↔ i < pieces ∧ bitAt buffer i = true := by
  unfold verifiedSet
  rw [Finset.mem_filter, Finset.mem_range]

/-- **The bytes that are covered** are those of the verified pieces. -/
theorem coveredBytes_eq (h : pieces = ceilDiv size 262144) {bits : Bitfield} (hbits : bits.Lawful) :
    coveredBytes size pieces (some bits) =
      ∑ i ∈ verifiedSet pieces bits.buffer, pieceSize size i := by
  have hlast : bits.get ((pieces : ℤ) - 1) = true ↔ pieces - 1 ∈ verifiedSet pieces bits.buffer := by
    rw [hbits, Bool.and_eq_true, decide_eq_true_eq, mem_verifiedSet,
      show ((pieces : ℤ) - 1).toNat = pieces - 1 by omega]
    constructor
    · rintro ⟨hpos, hbit⟩
      exact ⟨by omega, hbit⟩
    · rintro ⟨hpos, hbit⟩
      exact ⟨by omega, hbit⟩
  have hsum : ∑ i ∈ verifiedSet pieces bits.buffer, pieceSize size i =
      ∑ i ∈ verifiedSet pieces bits.buffer,
        ((262144 : ℤ) - if i = pieces - 1 then (pieces : ℤ) * 262144 - size else 0) :=
    Finset.sum_congr rfl fun i hi => pieceSize_eq h (mem_verifiedSet.mp hi).1
  rw [hsum, Finset.sum_sub_distrib, Finset.sum_const, Finset.sum_ite_eq', ← verifiedPieces_eq,
    nsmul_eq_mul]
  unfold coveredBytes
  dsimp only [Option.any_some]
  by_cases hmem : pieces - 1 ∈ verifiedSet pieces bits.buffer
  · rw [if_pos hmem, if_pos (hlast.mpr hmem)]
  · rw [if_neg hmem, if_neg (mt hlast.mp hmem)]

/-- All pieces together. -/
theorem sum_pieceSize (h : pieces = ceilDiv size 262144) :
    ∑ i ∈ Finset.range pieces, pieceSize size i = size := by
  have hsum : ∑ i ∈ Finset.range pieces, pieceSize size i = ∑ i ∈ Finset.range pieces,
      ((262144 : ℤ) - if i = pieces - 1 then (pieces : ℤ) * 262144 - size else 0) :=
    Finset.sum_congr rfl fun i hi => pieceSize_eq h (Finset.mem_range.mp hi)
  rw [hsum, Finset.sum_sub_distrib, Finset.sum_const, Finset.sum_ite_eq', Finset.card_range,
    nsmul_eq_mul]
  unfold ceilDiv at h
  split
  · omega
  next hnot =>
    rw [Finset.mem_range] at hnot
    omega

theorem verifiedSet_subset (buffer : Bytes) : verifiedSet pieces buffer ⊆ Finset.range pieces :=
  Finset.filter_subset _ _

/-- More verified pieces, more bytes. -/
theorem sum_mono (h : pieces = ceilDiv size 262144) {s t : Finset Nat} (hst : s ⊆ t)
    (ht : t ⊆ Finset.range pieces) : ∑ i ∈ s, pieceSize size i ≤ ∑ i ∈ t, pieceSize size i :=
  Finset.sum_le_sum_of_subset_of_nonneg hst fun _ hi _ =>
    (pieceSize_pos h (Finset.mem_range.mp (ht hi))).le

/-- Only all of them together cover the whole component. -/
theorem sum_eq_size (h : pieces = ceilDiv size 262144) {s : Finset Nat} (hs : s ⊆ Finset.range pieces) :
    ∑ i ∈ s, pieceSize size i = size ↔ s = Finset.range pieces := by
  constructor
  · intro hsum
    by_contra hne
    obtain ⟨i, hi, hmiss⟩ := Finset.exists_of_ssubset (hs.ssubset_of_ne hne)
    have hlt : ∑ i ∈ s, pieceSize size i < ∑ i ∈ Finset.range pieces, pieceSize size i :=
      Finset.sum_lt_sum_of_subset hs hi hmiss (pieceSize_pos h (Finset.mem_range.mp hi))
        fun j hj _ => (pieceSize_pos h (Finset.mem_range.mp hj)).le
    rw [sum_pieceSize h, hsum] at hlt
    exact lt_irrefl _ hlt
  · rintro rfl
    exact sum_pieceSize h

end Sizes

/-- **The verified byte count.** -/
theorem verified_bytes {entry : TorrentEntry} {status : TorrentStatus} {bits : Bitfield}
    (hpieces : entry.pieces = ceilDiv entry.size 262144) (hstatus : entry.torrent = some status)
    (hfield : status.bitfield = some bits) (hbits : bits.Lawful) :
    (describe entry).coveredBytes =
        ∑ i ∈ verifiedSet entry.pieces bits.buffer, min 262144 ((entry.size : ℤ) - 262144 * i) ∧
      0 ≤ (describe entry).coveredBytes ∧ (describe entry).coveredBytes ≤ entry.size ∧
      ((describe entry).complete = true ↔ ∀ i < entry.pieces, bitAt bits.buffer i = true) ∧
      ∀ bits' : Bitfield, bits'.Lawful →
        verifiedSet entry.pieces bits.buffer ⊆ verifiedSet entry.pieces bits'.buffer →
        (describe entry).coveredBytes ≤ (describe { entry with
          torrent := some { status with bitfield := some bits' } }).coveredBytes := by
  have hcovered : (describe entry).coveredBytes =
      ∑ i ∈ verifiedSet entry.pieces bits.buffer, pieceSize entry.size i := by
    show coveredBytes entry.size entry.pieces (entry.torrent.bind (·.bitfield)) = _
    rw [hstatus, Option.bind_some, hfield]
    exact coveredBytes_eq hpieces hbits
  have hrange : verifiedSet entry.pieces bits.buffer ⊆ Finset.range entry.pieces :=
    verifiedSet_subset bits.buffer
  refine ⟨hcovered, ?_, ?_, ?_, fun bits' hbits' hsub => ?_⟩
  · rw [hcovered]
    exact Finset.sum_nonneg fun i hi => (pieceSize_pos hpieces (mem_verifiedSet.mp hi).1).le
  · rw [hcovered, ← sum_pieceSize hpieces]
    exact sum_mono hpieces hrange (Finset.Subset.refl _)
  · have hcomplete : (describe entry).complete = decide ((describe entry).coveredBytes = entry.size) := rfl
    rw [hcomplete, decide_eq_true_eq, hcovered, sum_eq_size hpieces hrange]
    unfold verifiedSet
    rw [Finset.filter_eq_self]
    simp only [Finset.mem_range]
  · rw [hcovered]
    show _ ≤ coveredBytes entry.size entry.pieces (some bits')
    rw [coveredBytes_eq hpieces hbits']
    exact sum_mono hpieces hsub (verifiedSet_subset bits'.buffer)

/-- Two pieces, the second of one byte; only that one is verified, and stray bits follow it. -/
def demoEntry : TorrentEntry :=
  let buffer : Bytes := [0x6f, 1]
  { infoHash := "", kind := "disk", filename := "disk.my98", size := 262145, pieces := 2,
    torrent := some
      { bitfield := some { buffer, get := fun i => decide (0 ≤ i) && bitAt buffer i.toNat }
        downloaded := 7 },
    receivedData := none }

/-- One byte is covered. -/
theorem demo_verified_bytes : (describe demoEntry).coveredBytes = 1 ∧
    (describe demoEntry).complete = false := by
  obtain ⟨hcovered, -, -, hcomplete, -⟩ :=
    @verified_bytes demoEntry _ _ (by decide) rfl rfl fun _ => rfl
  refine ⟨hcovered.trans (by decide +kernel), ?_⟩
  rw [← Bool.not_eq_true, hcomplete]
  decide +kernel

end My98.Web.Startup
