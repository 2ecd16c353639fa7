/-
  My98.Disk.Image — reading an open image
  (`src/disk/src/lib.rs`: `Image::bounds`, `Image::original`, `Image::read`).

  Three layers answer a read, at three granularities: the overlay of written 512-byte
  sectors (`dirty`), the cache of decrypted 64 KiB chunks, and the encrypted records of the
  file.  `Image.content` is what they add up to, ONE flat byte array: byte `p` is the dirty
  byte of its sector when that sector was written, and byte `p` of the base plaintext
  otherwise.

  Main results:
    • `wp_read` — WHATEVER the host hands out, a read that returns shows at each position a
      dirty byte or a byte of an authentic chunk, and a read that stops, stops cleanly;
      either way only the cache has changed, and it is still truthful (`Image.WF`);
    • `Shown.eq_slice` — over a file that decrypts to `base`, that is the range of the content.
-/
import My98.Disk.Cache

namespace My98.Disk

open My98.Lib My98.Crypto

/-- `BTreeMap<u64, Zeroizing<Vec<u8>>>`: the written sectors. -/
abbrev Dirty := Std.TreeMap Nat Bytes

structure Image where
  source : String
  size : Nat
  disk : Crypto.Disk
  dirty : Dirty
  cache : Cache

namespace Image

variable (P : Primitives)

/-! ## §1. The code. -/

def bounds (img : Image) (offset len : Nat) : Async Image Unit :=
  require (offset ≤ img.size ∧ len ≤ img.size - offset) ⟨"IO_ERROR", "Disk range out of bounds"⟩

def self : Async Image Image := do
  let (img, _) ← get
  pure img

def setCache (cache : Cache) : Async Image Unit :=
  modify fun (img, t) => ({ img with cache }, t)

/-- `self.cache.put(index, b)`. -/
def cachePut (index : Nat) (b : Bytes) : Async Image Unit := do
  let img ← self
  match img.cache.put index b with
  | .ok cache => setCache cache
  | .error stop => throw stop

/-- The plaintext of chunk `index` of the file. -/
def original (io : Io) (index : Nat) : Async Image Bytes := do
  check io
  let img ← self
  setCache (img.cache.get index).2
  match (img.cache.get index).1 with
  | some b => pure b
  | none => do
    require (index * CHUNK < 2 ^ 64) (corrupt "Offset overflow")
    require (index * CHUNK < img.size) ⟨"IO_ERROR", "Chunk out of bounds"⟩
    let rest ← usub img.size (index * CHUNK)
    let len := min rest CHUNK
    let skip ← umul index (CHUNK + OVERHEAD)
    let enc ← exact io img.source (HEADER + skip) (len + OVERHEAD)
    let b ← ofResult <| (img.disk.openUnit P (unit index).val enc).mapError fun _ =>
      corrupt "Chunk authentication failed"
    require (b.length = len) (corrupt "Chunk plaintext length mismatch")
    cachePut index b
    pure b

/-- The entries `self.dirty.range(first..=last)` yields, in order. -/
def dirtyRange (dirty : Dirty) (first last : Nat) : List (Nat × Bytes) :=
  dirty.toList.filter fun e => first ≤ e.1 ∧ e.1 ≤ last

/-- `self.dirty.range(first..=last)`, which panics on a range that ends before it starts. -/
def rangeOf (dirty : Dirty) (first last : Nat) : Async Image (List (Nat × Bytes)) :=
  if first ≤ last then pure (dirtyRange dirty first last) else throw .panic

/-- One turn of the inner `for`: copy the pending sector over the span `[pos, pos + n)`,
    which sits at `done` in `out`. -/
def patch (pos done n : Nat) (out : Bytes) (entry : Nat × Bytes) : Async Image Bytes := do
  let start ← umul entry.1 512
  let a := max start pos
  let z := min (start + entry.2.length) (pos + n)
  if a < z then do
    let lo ← usub a start
    let hi ← usub z start
    let src ← index entry.2 lo hi
    let outLo ← usub a pos
    let outHi ← usub z pos
    copyFromSlice out (done + outLo) (done + outHi) src
  else pure out

/-- The `while done < len` of `read`; `fuel` bounds the number of turns. -/
def readLoop (io : Io) (offset len : Nat) : Nat → Nat → Bytes → Async Image Bytes
  | 0, done, out => if done < len then throw .diverged else pure out
  | fuel + 1, done, out =>
    if done < len then do
      check io
      let img ← self
      let pos := offset + done
      let sector := pos / 512
      let inside := pos % 512
      let left ← usub len done
      let room ← usub 512 inside
      match img.dirty[sector]? with
      | some b => do
        -- the fast path: the whole span up to the sector's end is in the overlay
        let n := min room left
        let src ← index b inside (inside + n)
        let out ← copyFromSlice out done (done + n) src
        readLoop io offset len fuel (done + n) out
      | none => do
        let b ← original P io (pos / CHUNK)
        let inner := pos % CHUNK
        let room ← usub CHUNK inner
        let n := min room left
        let src ← index b inner (inner + n)
        let out ← copyFromSlice out done (done + n) src
        let final ← usub (pos + n) 1
        let entries ← rangeOf img.dirty sector (final / 512)
        let out ← entries.foldlM (patch pos done n) out
        readLoop io offset len fuel (done + n) out
    else pure out

def read (io : Io) (offset len : Nat) : Async Image Bytes := do
  let img ← self
  bounds img offset len
  readLoop P io offset len len 0 (List.replicate len 0)

/-! ## §2. What an image stands for. -/

/-- Byte `p` of the overlay over the bytes `under`. -/
def overlay (dirty : Dirty) (under : Nat → UInt8) (p : Nat) : UInt8 :=
  match dirty[p / 512]? with
  | some b => b.getD (p % 512) 0
  | none => under p

/-- **The logical content** of an image whose file decrypts to `base`. -/
def content (img : Image) (base : Bytes) : Bytes :=
  (List.range img.size).map (overlay img.dirty fun p => base.getD p 0)

@[simp] theorem length_content (img : Image) (base : Bytes) :
    (img.content base).length = img.size := by
  simp [content]

theorem getElem?_content (img : Image) (base : Bytes) (p : Nat) :
    (img.content base)[p]? = if p < img.size
      then some (overlay img.dirty (fun p => base.getD p 0) p) else none := by
  unfold content
  split
  next h => simp [List.getElem?_range h]
  next h => simp [h]

/-- `b` may stand for chunk `i`: some record the host may hand out opens to it. -/
def Authentic (img : Image) (host : Host) (i : Nat) (b : Bytes) : Prop :=
  i * CHUNK < img.size ∧ b.length = chunkLen img.size i
    ∧ ∃ enc, enc.length = chunkLen img.size i + OVERHEAD ∧ host img.source (recordOffset i) enc
      ∧ img.disk.openUnit P (unit i).val enc = .ok b

/-- The file of `img` decrypts to `base`: the only authentic chunk `i` is chunk `i` of `base`. -/
structure Over (img : Image) (host : Host) (base : Bytes) : Prop where
  length_base : base.length = img.size
  authentic : ∀ i b, img.Authentic P host i b → b = slice base (i * CHUNK) (chunkLen img.size i)

/-- The representation invariant: the size is legal, each dirty sector lies inside the image
    with exactly the bytes of that sector, and each cached chunk is authentic. -/
structure WF (img : Image) (host : Host) : Prop where
  size_pos : 0 < img.size
  size_le : img.size ≤ MAX_SIZE
  dirty : ∀ s b, img.dirty[s]? = some b →
    512 * s < img.size ∧ b.length = min 512 (img.size - 512 * s)
  counted : img.cache.Counted
  cached : ∀ i b, img.cache.find i = some b → img.Authentic P host i b

/-- Nothing but the cache differs. -/
def Like (img img' : Image) : Prop := img' = { img with cache := img'.cache }

theorem Like.refl (img : Image) : Like img img := rfl

theorem Like.trans {a b c : Image} (h : Like a b) (h' : Like b c) : Like a c := by
  unfold Like at *
  rw [h', h]

theorem Like.content {img img' : Image} (h : Like img img') (base : Bytes) :
    img'.content base = img.content base := by
  rw [h]
  rfl

theorem Like.authentic {img img' : Image} (h : Like img img') {host : Host} {i : Nat} {b : Bytes} :
    img'.Authentic P host i b ↔ img.Authentic P host i b := by
  rw [h]
  exact Iff.rfl

theorem Like.over {img img' : Image} (h : Like img img') {host : Host} {base : Bytes}
    (ho : img.Over P host base) : img'.Over P host base := by
  rw [h]
  exact ⟨ho.length_base, ho.authentic⟩

/-- What every call on an image leaves behind: the same image up to its cache, still
    well formed. -/
def Kept (host : Host) (img img' : Image) : Prop :=
  Like img img' ∧ img'.WF P host

/-- Byte `x` may stand at position `p`: it is the dirty byte there, or it comes from an
    authentic chunk. -/
def Shows (img : Image) (host : Host) (p : Nat) (x : UInt8) : Prop :=
  match img.dirty[p / 512]? with
  | some b => b[p % 512]? = some x
  | none => ∃ chunk, img.Authentic P host (p / CHUNK) chunk ∧ chunk[p % CHUNK]? = some x

/-- The first `done` bytes of `out` may stand at `offset`. -/
def Shown (img : Image) (host : Host) (offset done : Nat) (out : Bytes) : Prop :=
  ∀ q, q < done → ∃ x, out[q]? = some x ∧ img.Shows P host (offset + q) x

variable {P}

theorem WF.new {source : String} {size : Nat} {disk : Crypto.Disk} {host : Host}
    (hpos : 0 < size) (hle : size ≤ MAX_SIZE) :
    WF P { source, size, disk, dirty := ∅, cache := Cache.new } host where
  size_pos := hpos
  size_le := hle
  dirty := by
    intro s b h
    simp at h
  counted := Cache.counted_new
  cached := by
    intro i b h
    rw [Cache.find_new] at h
    cases h

theorem WF.setCache {img : Image} {host : Host} (h : img.WF P host) {cache : Cache}
    (hc : cache.Counted) (hf : ∀ i b, cache.find i = some b → img.Authentic P host i b) :
    WF P { img with cache } host :=
  ⟨h.size_pos, h.size_le, h.dirty, hc, hf⟩

theorem WF.setDirty {img : Image} {host : Host} (h : img.WF P host) {dirty : Dirty}
    (hd : ∀ s b, dirty[s]? = some b →
      512 * s < img.size ∧ b.length = min 512 (img.size - 512 * s)) :
    WF P { img with dirty } host :=
  ⟨h.size_pos, h.size_le, hd, h.counted, h.cached⟩

/-- **Over a file that decrypts to `base`, a byte that may stand at `p` is the content's.** -/
theorem Shows.eq_overlay {img : Image} {host : Host} {base : Bytes} (ho : img.Over P host base)
    {p : Nat} {x : UInt8} (h : img.Shows P host p x) :
    x = overlay img.dirty (fun p => base.getD p 0) p := by
  unfold Shows at h
  unfold overlay
  cases hd : img.dirty[p / 512]? with
  | some b =>
    rw [hd] at h
    show x = b.getD (p % 512) 0
    rw [List.getD_eq_getElem?_getD, h]
    rfl
  | none =>
    rw [hd] at h
    obtain ⟨chunk, hchunk, hx⟩ := h
    have hlt : p % CHUNK < chunkLen img.size (p / CHUNK) := by
      rw [← hchunk.2.1]
      exact (List.getElem?_eq_some_iff.mp hx).1
    rw [ho.authentic _ _ hchunk, getElem?_slice, if_pos hlt, Nat.mul_comm, Nat.div_add_mod] at hx
    show x = base.getD p 0
    rw [List.getD_eq_getElem?_getD, hx]
    rfl

theorem Shown.eq_slice {img : Image} {host : Host} {base : Bytes} (ho : img.Over P host base)
    {offset len : Nat} {out : Bytes} (hlen : out.length = len) (hbound : offset + len ≤ img.size)
    (h : img.Shown P host offset len out) : out = slice (img.content base) offset len := by
  refine List.ext_getElem? fun q => ?_
  rw [getElem?_slice, getElem?_content]
  by_cases hq : q < len
  · obtain ⟨x, hx, hshow⟩ := h q hq
    rw [if_pos hq, if_pos (by omega), hx, hshow.eq_overlay ho]
  · rw [if_neg hq, List.getElem?_eq_none (by omega)]

/-! ## §3. `original` returns an authentic chunk. -/

theorem wp_original {host : Host} {io : Io} (hio : io.Within host) {index : Nat}
    {s : Image × Nat} (hwf : s.1.WF P host) :
    wp (original P io index)
      (fun b s' => s.1.Authentic P host index b ∧ Kept P host s.1 s'.1)
      (fun e s' => e.Clean ∧ Kept P host s.1 s'.1) s := by
  -- the two states the call can be in: as found, and with a restamped cache
  have hsame : Kept P host s.1 s.1 := ⟨Like.refl _, hwf⟩
  have hget : WF P { s.1 with cache := (s.1.cache.get index).2 } host := by
    refine hwf.setCache (Cache.counted_get hwf.counted index) (fun i b hb => ?_)
    rw [Cache.find_get] at hb
    exact hwf.cached i b hb
  have hkept : Kept P host s.1 { s.1 with cache := (s.1.cache.get index).2 } := ⟨rfl, hget⟩
  unfold original
  rw [wp_bind]
  refine wp_check io ?_ (fun e => ⟨trivial, hsame⟩)
  simp only [self, setCache, wp_bind, wp_get, wp_pure, wp_modify]
  cases hhit : (s.1.cache.get index).1 with
  | some b =>
    rw [Cache.get_fst] at hhit
    exact ⟨hwf.cached index b hhit, hkept⟩
  | none =>
    dsimp only
    rw [wp_bind]
    refine wp_require (fun _ => ?_) (fun _ => ⟨trivial, hkept⟩)
    rw [wp_bind]
    refine wp_require (fun hlt => ?_) (fun _ => ⟨trivial, hkept⟩)
    rw [usub_eq (by omega), pure_bind, umul_eq (mul_stride_lt hwf.size_le hlt), pure_bind, wp_bind]
    refine wp_exact hio (fun t enc hlen henc => ?_) (fun t e he => ⟨he, hkept⟩)
    rw [wp_bind]
    refine wp_ofResult (fun b hb => ?_) (fun e _ => ⟨trivial, hkept⟩)
    have hb := mapError_eq_ok hb
    rw [wp_bind]
    refine wp_require (fun hblen => ?_) (fun _ => ⟨trivial, hkept⟩)
    have hauth : s.1.Authentic P host index b := ⟨hlt, hblen, enc, hlen, henc, hb⟩
    -- the authenticated chunk goes into the cache
    have hsmall : b.length ≤ CACHE_LIMIT := by
      rw [hblen]
      simp only [CHUNK, CACHE_LIMIT]
      omega
    obtain ⟨c', hput, hcounted, _, hfind, hother⟩ :=
      Cache.put_spec (Cache.counted_get hwf.counted index) index hsmall
    unfold cachePut
    simp only [self, Image.setCache, wp_bind, wp_get, wp_pure]
    rw [hput]
    simp only [wp_modify]
    refine ⟨hauth, rfl, hwf.setCache hcounted (fun i v hv => ?_)⟩
    by_cases hi : i = index
    · subst hi
      rw [hfind] at hv
      injection hv with hv
      rw [← hv]
      exact hauth
    · rcases hother i hi with h | h
      · rw [h] at hv
        cases hv
      · rw [h, Cache.find_get] at hv
        exact hwf.cached i v hv

/-! ## §4. One span of a read. -/

/-- One pending sector, copied over the span `[pos, pos + n)` that sits at `done` in `out`:
    exactly the positions of that sector change. -/
theorem wp_patch {size pos done n : Nat} {out : Bytes} {entry : Nat × Bytes} {s : Image × Nat}
    (hsize : size ≤ MAX_SIZE) (hspan : pos + n ≤ size) (hfit : done + n ≤ out.length)
    (hstart : 512 * entry.1 < size) (hlen : entry.2.length = min 512 (size - 512 * entry.1)) :
    wp (patch pos done n out entry)
      (fun out' s' => s' = s ∧ out'.length = out.length ∧ ∀ q, out'[q]? =
        if done ≤ q ∧ q < done + n ∧ (pos + (q - done)) / 512 = entry.1
        then entry.2[(pos + (q - done)) % 512]? else out[q]?)
      (fun _ _ => False) s := by
  obtain ⟨sector, bytes⟩ := entry
  dsimp only at hstart hlen ⊢
  have hmul : sector * 512 < 2 ^ 64 := by
    have hmax : MAX_SIZE < 2 ^ 64 := by decide
    omega
  unfold patch
  rw [umul_eq hmul, pure_bind]
  dsimp only
  by_cases haz : max (sector * 512) pos < min (sector * 512 + bytes.length) (pos + n)
  · rw [if_pos haz, usub_eq (by omega), pure_bind, usub_eq (by omega), pure_bind,
      index_eq (by omega) (by omega), pure_bind, usub_eq (by omega), pure_bind,
      usub_eq (by omega), pure_bind,
      copyFromSlice_eq (by omega) (by omega) (by rw [length_slice]; omega), wp_pure]
    refine ⟨rfl, length_splice (by rw [length_slice]; omega), fun q => ?_⟩
    rw [getElem?_splice _ _ _ _ (by omega), length_slice, getElem?_slice]
    by_cases hq : done ≤ q ∧ q < done + n ∧ (pos + (q - done)) / 512 = sector
    · rw [if_pos hq, if_neg (by omega), if_pos (by omega), if_pos (by omega)]
      congr 1
      omega
    · rw [if_neg hq]
      by_cases h1 : q < done + (max (sector * 512) pos - pos)
      · rw [if_pos h1]
      · rw [if_neg h1, if_neg (by omega)]
  · rw [if_neg haz, wp_pure]
    refine ⟨rfl, rfl, fun q => ?_⟩
    rw [if_neg (by omega)]

theorem rangeOf_eq {dirty : Dirty} {first last : Nat} (h : first ≤ last) :
    rangeOf dirty first last = pure (dirtyRange dirty first last) := if_pos h

theorem mem_dirtyRange {dirty : Dirty} {first last : Nat} {e : Nat × Bytes} :
    e ∈ dirtyRange dirty first last ↔ dirty[e.1]? = some e.2 ∧ first ≤ e.1 ∧ e.1 ≤ last := by
  unfold dirtyRange
  rw [List.mem_filter, Std.TreeMap.mem_toList_iff_getElem?_eq_some]
  simp

theorem overlay_of_dirty {dirty : Dirty} {under : Nat → UInt8} {b : Bytes} {p : Nat}
    (h : dirty[p / 512]? = some b) (hlen : p % 512 < b.length) :
    b[p % 512]? = some (overlay dirty under p) := by
  unfold overlay
  rw [h]
  simp [List.getElem?_eq_getElem hlen]

theorem overlay_of_clean {dirty : Dirty} {under : Nat → UInt8} {p : Nat}
    (h : dirty[p / 512]? = none) : overlay dirty under p = under p := by
  unfold overlay
  rw [h]

/-- The inner `for`: once the bytes `under` of the span are in place, patching every dirty
    sector between the first and the last of the span overlays them. -/
theorem wp_patches {dirty : Dirty} {size : Nat} (under : Nat → UInt8) {out : Bytes}
    {pos done n : Nat} {s : Image × Nat} (hsize : size ≤ MAX_SIZE)
    (hdirty : ∀ s b, dirty[s]? = some b → 512 * s < size ∧ b.length = min 512 (size - 512 * s))
    (hn : 0 < n) (hspan : pos + n ≤ size) (hfit : done + n ≤ out.length)
    (hunder : ∀ q, done ≤ q → q < done + n → out[q]? = some (under (pos + (q - done)))) :
    wp ((dirtyRange dirty (pos / 512) ((pos + n - 1) / 512)).foldlM (patch pos done n) out)
      (fun out' s' => s' = s ∧ out'.length = out.length
        ∧ (∀ q, q < done → out'[q]? = out[q]?)
        ∧ ∀ q, done ≤ q → q < done + n → out'[q]? = some (overlay dirty under (pos + (q - done))))
      (fun _ _ => False) s := by
  set entries := dirtyRange dirty (pos / 512) ((pos + n - 1) / 512) with hentries
  -- invariant: the sectors already visited show their dirty bytes, the others `under`
  have key := wp_foldlM (E := fun (_ : Stop) (_ : Image × Nat) => False) (patch pos done n)
    (fun (visited : List (Nat × Bytes)) (out' : Bytes) (s' : Image × Nat) =>
      s' = s ∧ out'.length = out.length
      ∧ (∀ q, q < done → out'[q]? = out[q]?)
      ∧ ∀ q, done ≤ q → q < done + n → out'[q]? = some
          (if (pos + (q - done)) / 512 ∈ visited.map Prod.fst
           then overlay dirty under (pos + (q - done)) else under (pos + (q - done))))
    entries ?_ out s
    ⟨rfl, rfl, fun _ _ => rfl, fun q h h' => by simpa using hunder q h h'⟩
  · refine wp_mono key ?_ (fun _ _ h => h)
    rintro out' s' ⟨hs, hlen, hlow, hmid⟩
    refine ⟨hs, hlen, hlow, fun q h h' => ?_⟩
    rw [hmid q h h']
    by_cases hmem : (pos + (q - done)) / 512 ∈ entries.map Prod.fst
    · rw [if_pos hmem]
    · rw [if_neg hmem]
      -- a sector of the span that was not visited is not dirty
      cases hd : dirty[(pos + (q - done)) / 512]? with
      | none => rw [overlay_of_clean hd]
      | some b =>
        exfalso
        refine hmem (List.mem_map.mpr ⟨((pos + (q - done)) / 512, b), ?_, rfl⟩)
        rw [hentries, mem_dirtyRange]
        exact ⟨hd, by dsimp only; omega, by dsimp only; omega⟩
  · intro visited e rest acc s' hsplit hinv
    obtain ⟨hs, hlen, hlow, hmid⟩ := hinv
    have hmem : e ∈ entries := by rw [hsplit]; simp
    rw [hentries, mem_dirtyRange] at hmem
    obtain ⟨hstart, hblen⟩ := hdirty _ _ hmem.1
    refine wp_mono (wp_patch hsize hspan (by omega) hstart hblen) ?_ (fun _ _ h => h)
    rintro out' s'' ⟨hs', hlen', hq'⟩
    refine ⟨hs'.trans hs, hlen'.trans hlen, fun q hq => ?_, fun q h h' => ?_⟩
    · rw [hq' q, if_neg (by omega), hlow q hq]
    · rw [hq' q, List.map_append, List.map_cons, List.map_nil]
      by_cases hsec : (pos + (q - done)) / 512 = e.1
      · rw [if_pos ⟨h, h', hsec⟩, if_pos (by simp [hsec])]
        exact overlay_of_dirty (by rw [hsec]; exact hmem.1) (by omega)
      · rw [if_neg (by omega), hmid q h h']
        simp only [List.mem_append, List.mem_singleton, hsec, or_false]

/-- The fast path: a span inside one dirty sector, copied behind what is already shown. -/
theorem Shown.splice_dirty {img : Image} {host : Host} {offset done n : Nat} {out b : Bytes}
    (hout : done ≤ out.length) (hd : img.dirty[(offset + done) / 512]? = some b)
    (hsector : (offset + done) % 512 + n ≤ 512) (hb : (offset + done) % 512 + n ≤ b.length)
    (h : img.Shown P host offset done out) :
    img.Shown P host offset (done + n) (splice out done (slice b ((offset + done) % 512) n)) := by
  intro q hq
  rw [getElem?_splice _ _ _ _ hout, length_slice, getElem?_slice]
  by_cases hqd : q < done
  · rw [if_pos hqd]
    exact h q hqd
  · rw [if_neg hqd, if_pos (by omega), if_pos (by omega),
      show (offset + done) % 512 + (q - done) = (offset + q) % 512 by omega]
    have hlt : (offset + q) % 512 < b.length := by omega
    have hsec : img.dirty[(offset + q) / 512]? = some b := by
      rw [show (offset + q) / 512 = (offset + done) / 512 by omega]
      exact hd
    refine ⟨b[(offset + q) % 512], List.getElem?_eq_getElem hlt, ?_⟩
    unfold Shows
    rw [hsec]
    exact List.getElem?_eq_getElem hlt

/-- The chunk path: a span of one authentic chunk, with the dirty sectors over it. -/
theorem Shown.patched {img : Image} {host : Host} {offset done n : Nat} {out out' chunk : Bytes}
    (hdirty : ∀ s b, img.dirty[s]? = some b →
      512 * s < img.size ∧ b.length = min 512 (img.size - 512 * s))
    (hauth : img.Authentic P host ((offset + done) / CHUNK) chunk)
    (hchunk : (offset + done) % CHUNK + n ≤ chunk.length) (hspan : offset + done + n ≤ img.size)
    (hlow : ∀ q, q < done → out'[q]? = out[q]?)
    (hmid : ∀ q, done ≤ q → q < done + n → out'[q]? = some
      (overlay img.dirty (fun p => chunk.getD (p % CHUNK) 0) (offset + done + (q - done))))
    (h : img.Shown P host offset done out) : img.Shown P host offset (done + n) out' := by
  intro q hq
  by_cases hqd : q < done
  · rw [hlow q hqd]
    exact h q hqd
  · refine ⟨_, hmid q (by omega) hq, ?_⟩
    rw [show offset + done + (q - done) = offset + q by omega]
    unfold Shows
    cases hd : img.dirty[(offset + q) / 512]? with
    | some b =>
      have hlen := (hdirty _ _ hd).2
      exact overlay_of_dirty hd (by omega)
    | none =>
      -- the span stays inside one chunk
      have hlen := hauth.2.1
      simp only [chunkLen] at hlen
      have hsame : (offset + q) / CHUNK = (offset + done) / CHUNK := by
        simp only [CHUNK] at *
        omega
      have hlt : (offset + q) % CHUNK < chunk.length := by
        simp only [CHUNK] at *
        omega
      refine ⟨chunk, by rw [hsame]; exact hauth, ?_⟩
      rw [overlay_of_clean hd]
      simp [List.getElem?_eq_getElem hlt]

/-! ## §5. The read loop. -/

/-- **The loop of `read`.**  With the first `done` bytes already right, the loop returns all
    `len` of them or stops cleanly.  Every turn copies at least one byte, so `len` turns are
    enough. -/
theorem wp_readLoop {host : Host} {io : Io} (hio : io.Within host) {img : Image}
    {offset len : Nat} (hbound : offset + len ≤ img.size) :
    ∀ (fuel done : Nat) (out : Bytes) (s : Image × Nat), Kept P host img s.1 → done ≤ len →
      len ≤ done + fuel → out.length = len → img.Shown P host offset done out →
      wp (readLoop P io offset len fuel done out)
        (fun out' s' => out'.length = len ∧ img.Shown P host offset len out' ∧ Kept P host img s'.1)
        (fun e s' => e.Clean ∧ Kept P host img s'.1) s := by
  intro fuel
  induction fuel with
  | zero =>
    intro done out s hk hle hfuel hlen hdone
    have hend : done = len := by omega
    unfold readLoop
    rw [if_neg (by omega), wp_pure]
    exact ⟨hlen, hend ▸ hdone, hk⟩
  | succ fuel ih =>
    intro done out s hk hle hfuel hlen hdone
    unfold readLoop
    by_cases hlt : done < len
    · rw [if_pos hlt, wp_bind]
      refine wp_check io ?_ (fun e => ⟨trivial, hk⟩)
      simp only [self, wp_bind, wp_get, wp_pure]
      obtain ⟨hlike, hwf⟩ := hk
      have hdirty : s.1.dirty = img.dirty := by rw [hlike]
      have hsize : s.1.size = img.size := by rw [hlike]
      have hinside : (offset + done) % 512 < 512 := Nat.mod_lt _ (by omega)
      rw [usub_eq (by omega), wp_pure, usub_eq (by omega), wp_pure, hdirty]
      -- A sector that was written comes from the overlay, the rest from the chunk in the file.
      cases hd : img.dirty[(offset + done) / 512]? with
      | some b =>
        obtain ⟨hstart, hblen⟩ := hwf.dirty _ b (by rw [hdirty]; exact hd)
        rw [hsize] at hstart hblen
        dsimp only
        set n := min (512 - (offset + done) % 512) (len - done) with hn
        rw [wp_bind, index_eq (by omega) (by omega), wp_pure, wp_bind,
          copyFromSlice_eq (by omega) (by omega) (by rw [length_slice]; omega), wp_pure,
          Nat.add_sub_cancel_left]
        exact ih _ _ _ ⟨hlike, hwf⟩ (by omega) (by omega)
          ((length_splice (by rw [length_slice]; omega)).trans hlen)
          (hdone.splice_dirty (by omega) hd (by omega) (by omega))
      | none =>
        dsimp only
        rw [wp_bind]
        refine wp_mono (wp_original hio hwf) ?_ ?_
        · rintro chunk s' ⟨hauth, hlike', hwf'⟩
          have hauth := (hlike.authentic P).mp hauth
          obtain ⟨hchunk, hclen, -⟩ := hauth
          have hinner : (offset + done) % CHUNK < CHUNK := Nat.mod_lt _ (by decide)
          have hpos := Nat.div_add_mod (offset + done) CHUNK
          rw [Nat.mul_comm] at hpos
          simp only [chunkLen] at hclen
          generalize (offset + done) / CHUNK * CHUNK = start at *
          rw [wp_bind, usub_eq (by omega), wp_pure]
          set n := min (CHUNK - (offset + done) % CHUNK) (len - done) with hn
          rw [wp_bind, index_eq (by omega) (by omega), wp_pure, wp_bind,
            copyFromSlice_eq (by omega) (by omega) (by rw [length_slice]; omega), wp_pure, wp_bind,
            usub_eq (by omega), wp_pure, wp_bind, rangeOf_eq (by omega), wp_pure, wp_bind,
            Nat.add_sub_cancel_left]
          have hsrc : (slice chunk ((offset + done) % CHUNK) n).length = n := by
            rw [length_slice]; omega
          have hout : (splice out done (slice chunk ((offset + done) % CHUNK) n)).length = len :=
            (length_splice (by omega)).trans hlen
          -- The sectors of the chunk that were written are copied over it.
          refine wp_mono (wp_patches (fun p => chunk.getD (p % CHUNK) 0)
            (hsize ▸ hwf.size_le) (fun s b h => hsize ▸ hwf.dirty s b (hdirty ▸ h))
            (by omega) (by omega) (by omega) ?_) ?_ (fun _ _ h => h.elim)
          · intro q h h'
            rw [getElem?_splice _ _ _ _ (by omega), hsrc, if_neg (by omega), if_pos (by omega),
              getElem?_slice, if_pos (by omega)]
            have hmod : (offset + done + (q - done)) % CHUNK = (offset + done) % CHUNK + (q - done) := by
              simp only [CHUNK] at *
              omega
            rw [hmod]
            simp [List.getElem?_eq_getElem
              (show (offset + done) % CHUNK + (q - done) < chunk.length by omega)]
          · rintro out' s'' ⟨hs, hlen', hlow, hmid⟩
            subst hs
            refine ih _ _ _ ⟨hlike.trans hlike', hwf'⟩ (by omega) (by omega) (hlen'.trans hout) ?_
            refine Shown.patched (fun s b h => hsize ▸ hwf.dirty s b (hdirty ▸ h))
              ((hlike.authentic P).mp ‹_›) (by omega) (by omega) (fun q hq => ?_) hmid hdone
            -- Below `done` nothing has changed.
            rw [hlow q hq, getElem?_splice _ _ _ _ (by omega), if_pos hq]
        · rintro e s' ⟨he, hlike', hwf'⟩
          exact ⟨he, hlike.trans hlike', hwf'⟩
    · have hend : done = len := by omega
      rw [if_neg hlt, wp_pure]
      exact ⟨hlen, hend ▸ hdone, hk⟩

/-- **A read shows the image.**  Any offset and length, any host: a range inside the image
    comes back with a byte that may stand there at each position; a range outside it, and any
    failure of the host, is a clean stop.  Only the cache changes. -/
theorem wp_read {host : Host} {io : Io} (hio : io.Within host) {s : Image × Nat}
    (hwf : s.1.WF P host) {offset len : Nat} :
    wp (read P io offset len)
      (fun out s' => offset + len ≤ s.1.size ∧ out.length = len
        ∧ s.1.Shown P host offset len out ∧ Kept P host s.1 s'.1)
      (fun e s' => e.Clean ∧ Kept P host s.1 s'.1) s := by
  unfold read
  simp only [self, bounds, wp_bind, wp_get, wp_pure]
  refine wp_require (fun hb => ?_) (fun _ => ⟨trivial, Like.refl _, hwf⟩)
  refine wp_mono (wp_readLoop hio (by omega) len 0 (List.replicate len 0) s
    ⟨Like.refl _, hwf⟩ (by omega) (by omega) (by simp) (fun q hq => by omega)) ?_ (fun _ _ h => h)
  rintro out s' ⟨hlen, hshown, hk⟩
  exact ⟨by omega, hlen, hshown, hk⟩

end Image

end My98.Disk
