/-
  My98.Disk.Layout — where the records of a disk file lie
  (`src/disk/src/lib.rs`: `file_size`, `Image::original`).

  The layout is one formula that several languages write out for themselves: record `i` starts
  at `198 + i * 65598` and is as long as its chunk and an envelope.  The number of records is
  rounded up in three ways (`divCeil`, `//` after adding 65535, `Math.ceil` of a quotient), and
  offsets pass through JavaScript as DOUBLES.

    • `spans`          — the records are consecutive, start after the header and end with the file;
    • `intermediates`  — every number met on the way is below 2^53, so that its double is exact;
    • `original_reads` — a chunk is read from the bytes of its record, and from no others.
-/
import Mathlib.Algebra.Order.Ring.Nat
import Mathlib.Tactic.Common
import My98.Disk.Image
import My98.Lib.Double

namespace My98.Disk

open My98.Lib My98.Crypto

/-! ## §1. Spans. -/

/-- Where record `i` ends. -/
def recordEnd (size i : Nat) : Nat := recordOffset i + (chunkLen size i + OVERHEAD)

/-- The records of an image of `size` bytes, in a file of `total`. -/
structure Spans (size total : Nat) : Prop where
  some : 0 < chunkCount size
  span : ∀ i, recordOffset i = 198 + i * 65598 ∧
    recordEnd size i = 198 + i * 65598 + (min 65536 (size - 65536 * i) + 62)
  first : recordOffset 0 = 198
  next : ∀ i, i + 1 < chunkCount size → recordEnd size i = recordOffset (i + 1)
  last : ∀ i, i + 1 = chunkCount size → recordEnd size i = total
  inside : ∀ i, i < chunkCount size → recordOffset i < recordEnd size i ∧ recordEnd size i ≤ total

/-- All chunks but the last are full. -/
theorem chunkLen_full {size i : Nat} (h : i + 1 < chunkCount size) : chunkLen size i = CHUNK := by
  have hlt := lt_chunkCount.mp h
  simp only [chunkLen, CHUNK] at *
  omega

/-- The last chunk is what the others leave. -/
theorem chunkLen_last {size i : Nat} (h : i + 1 = chunkCount size) :
    i * CHUNK + chunkLen size i = size ∧ 0 < chunkLen size i := by
  have hlt : i * CHUNK < size := lt_chunkCount.mp (by omega)
  have hge : ¬(i + 1) * CHUNK < size := fun hlt => by
    have := lt_chunkCount.mpr hlt
    omega
  simp only [chunkLen, CHUNK] at *
  omega

/-- **The records fill the file.** -/
theorem spans {size total : Nat} (h : fileSize size = .ok total) : Spans size total := by
  obtain ⟨hpos, hle, htotal⟩ := fileSize_ok h
  have hsome : 0 < chunkCount size := lt_chunkCount.mpr (by omega)
  have hnext : ∀ i, i + 1 < chunkCount size → recordEnd size i = recordOffset (i + 1) := by
    intro i hi
    unfold recordEnd recordOffset
    rw [chunkLen_full hi]
    simp only [HEADER, CHUNK, OVERHEAD]
    omega
  have hlast : ∀ i, i + 1 = chunkCount size → recordEnd size i = total := by
    intro i hi
    have hlen := (chunkLen_last hi).1
    rw [htotal, ← hi]
    unfold recordEnd recordOffset
    simp only [HEADER, CHUNK, OVERHEAD] at *
    omega
  refine ⟨hsome, ?_, rfl, hnext, hlast, ?_⟩
  · intro i
    have hstart : recordOffset i = 198 + i * 65598 := rfl
    refine ⟨hstart, ?_⟩
    rw [recordEnd, hstart]
    simp only [chunkLen, CHUNK, OVERHEAD]
    omega
  · intro i hi
    refine ⟨?_, ?_⟩
    · unfold recordEnd OVERHEAD
      omega
    · -- the record ends where a later one starts, or with the file
      have hmono : recordEnd size i ≤ recordEnd size (chunkCount size - 1) := by
        have hlt := lt_chunkCount.mp hi
        have hend : chunkCount size - 1 + 1 = chunkCount size := by omega
        have hlen := (chunkLen_last hend).1
        simp only [recordEnd, recordOffset, chunkLen, HEADER, CHUNK, OVERHEAD] at *
        omega
      rw [hlast (chunkCount size - 1) (by omega)] at hmono
      exact hmono

/-! ## §2. Numbers. -/

/-- Every number the three languages compute on the way to record `i`: the chunk's offset and
    what is left of the image, the skipped records, the record's start and end, the number of
    chunks and what they add to the file, and the sums that are rounded. -/
def intermediates (size i : Nat) : List Nat :=
  [i * CHUNK, size - i * CHUNK, i * (CHUNK + OVERHEAD), recordOffset i, recordEnd size i,
    (i + 1) * (CHUNK + OVERHEAD), recordOffset (i + 1), chunkCount size, size + (CHUNK - 1),
    chunkCount size * OVERHEAD, HEADER + size, HEADER + size + chunkCount size * OVERHEAD]

/-- The lengths that are held in a `usize`. -/
def lengths (size i : Nat) : List Nat :=
  [HEADER, CHUNK + OVERHEAD, chunkLen size i, chunkLen size i + OVERHEAD]

theorem intermediates_lt {size i : Nat} (hsize : size ≤ MAX_SIZE) (hi : i < chunkCount size) :
    ∀ n ∈ intermediates size i, n < 2 ^ 53 := by
  have hlt := lt_chunkCount.mp hi
  have hcount : chunkCount size ≤ 2 ^ 24 := by
    simp only [chunkCount, divCeil, CHUNK, MAX_SIZE] at *
    omega
  intro n hn
  simp only [intermediates, List.mem_cons, List.not_mem_nil, or_false] at hn
  simp only [recordEnd, recordOffset, chunkLen, HEADER, CHUNK, OVERHEAD, MAX_SIZE] at *
  omega

/-- The double of such a number is the number. -/
theorem double_exact {n : Nat} (h : n < 2 ^ 53) : double (n : ℚ) = some (n : ℚ) := by
  have hint : double ((n : ℤ) : ℚ) = some ((n : ℤ) : ℚ) :=
    double_int (by rw [abs_of_nonneg (by omega)]; omega)
  exact_mod_cast hint

theorem lengths_lt (size i : Nat) : ∀ n ∈ lengths size i, n < 2 ^ 32 := by
  intro n hn
  simp only [lengths, List.mem_cons, List.not_mem_nil, or_false] at hn
  simp only [chunkLen, HEADER, CHUNK, OVERHEAD] at *
  omega

/-- **The three ways to round up agree.** -/
theorem rounded (size : Nat) : (size + 65536 - 1) / 65536 = chunkCount size ∧
    ⌈(size : ℚ) / 65536⌉ = chunkCount size := by
  have hcount : (size + 65536 - 1) / 65536 = chunkCount size := by
    unfold chunkCount divCeil CHUNK
    omega
  refine ⟨hcount, ?_⟩
  rw [Int.ceil_eq_iff, ← hcount]
  have hlow : (((size + 65536 - 1) / 65536 : ℕ) : ℤ) * 65536 < size + 65536 := by omega
  have hhigh : (size : ℤ) ≤ (((size + 65536 - 1) / 65536 : ℕ) : ℤ) * 65536 := by omega
  constructor
  · rw [lt_div_iff₀ (by norm_num)]
    have hlow' : ((((size + 65536 - 1) / 65536 : ℕ) : ℤ) : ℚ) * 65536 < size + 65536 := by
      exact_mod_cast hlow
    linarith
  · rw [div_le_iff₀ (by norm_num)]
    exact_mod_cast hhigh

/-! ## §3. What a chunk is read from. -/

section Reads

variable {P : Primitives} {σ : Type}

/-- The hosts answer alike, as far as one range of one source goes. -/
structure Io.Alike (io io' : Io) (source : String) (offset length : Nat) : Prop where
  cancelled : io.cancelled = io'.cancelled
  read : ∀ t, io.read t source offset length = io'.read t source offset length

theorem check_alike {io io' : Io} (h : io.cancelled = io'.cancelled) :
    (check io : Async σ Unit) = check io' := by
  unfold check
  rw [h]

theorem exact_alike {io io' : Io} {source : String} {offset length : Nat}
    (h : io.Alike io' source offset length) :
    (exact io source offset length : Async σ Bytes) = exact io' source offset length := by
  unfold exact awaitRead
  rw [check_alike h.cancelled]
  simp only [h.read]

theorem bind_alike {α β : Type} {x : Async σ α} {f g : α → Async σ β} {s : σ × Nat}
    (h : ∀ a s', x s = .ok a s' → f a s' = g a s') : (x >>= f) s = (x >>= g) s := by
  show EStateM.bind x f s = EStateM.bind x g s
  unfold EStateM.bind
  cases hx : x s with
  | error e s' => rfl
  | ok a s' => exact h a s' hx

theorem check_keeps {io : Io} {s s' : σ × Nat} {u : Unit}
    (h : (check io : Async σ Unit) s = .ok u s') : s'.1 = s.1 := by
  have hkeep : wp (check io : Async σ Unit) (fun _ s' => s'.1 = s.1) (fun _ _ => True) s :=
    wp_check io rfl fun _ => trivial
  have hsame := wp_of_ok hkeep h
  exact hsame

theorem usub_ok {a b r : Nat} {s s' : σ × Nat} (h : (usub a b : Async σ Nat) s = .ok r s') :
    r = a - b := by
  unfold usub at h
  split at h
  · exact (EStateM.Result.ok.inj h).1.symm
  · cases h

theorem umul_ok {a b r : Nat} {s s' : σ × Nat} (h : (umul a b : Async σ Nat) s = .ok r s') :
    r = a * b := by
  unfold umul at h
  split at h
  · exact (EStateM.Result.ok.inj h).1.symm
  · cases h

/-- **A chunk is read from its record**: hosts that agree on the bytes of the record are not
    told apart. -/
theorem original_reads {io io' : Io} {img : Image} {i t : Nat}
    (h : io.Alike io' img.source (recordOffset i) (recordEnd img.size i - recordOffset i)) :
    Image.original P io i (img, t) = Image.original P io' i (img, t) := by
  have hlen : recordEnd img.size i - recordOffset i = chunkLen img.size i + OVERHEAD := by
    unfold recordEnd
    omega
  rw [hlen] at h
  unfold Image.original
  rw [check_alike h.cancelled]
  refine bind_alike fun _ s hs => ?_
  have himg : s.1 = img := check_keeps hs
  refine bind_alike fun img' s₁ hself => ?_
  obtain rfl : img' = img := by
    rw [← himg]
    exact (EStateM.Result.ok.inj hself).1.symm
  refine bind_alike fun _ s₂ _ => ?_
  cases (img'.cache.get i).1 with
  | some b => rfl
  | none =>
    refine bind_alike fun _ _ _ => ?_
    refine bind_alike fun _ _ _ => ?_
    refine bind_alike fun rest _ hrest => ?_
    refine bind_alike fun skip _ hskip => ?_
    obtain rfl := usub_ok hrest
    obtain rfl := umul_ok hskip
    have hread : (exact io img'.source (HEADER + i * (CHUNK + OVERHEAD))
        (min (img'.size - i * CHUNK) CHUNK + OVERHEAD) : Async Image Bytes) = _ := exact_alike h
    rw [hread]

end Reads

end My98.Disk
