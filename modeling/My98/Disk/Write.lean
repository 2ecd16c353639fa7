/-
  My98.Disk.Write — the two loops over the overlay
  (`src/disk/src/lib.rs`: the staging loop of `Engine::write`, the comparison loop of
  `Engine::begin_save`).

  A write stages the NEW value of every touched sector in a map of its own, merging the
  written bytes into the old sector, and publishes the map only after the last poll of the
  cancellation flag.  `Image.Spliced` says what the published overlay is, sector by sector;
  `Spliced.content` says what that means: one splice of the flat content.

  Main results: `wp_writeImage`, `Spliced.content`, `wp_compareSectors`.
-/
import My98.Disk.Engine

namespace My98.Disk

open My98.Lib My98.Crypto

variable {P : Primitives}

namespace Image

/-! ## §1. What a write stages. -/

/-- Sector `s` holds a byte of the range `[offset, offset + len)`. -/
def Touched (offset len s : Nat) : Prop :=
  0 < len ∧ offset / 512 ≤ s ∧ s ≤ (offset + len - 1) / 512

variable (P) in
/-- `v` is sector `s` with `bytes` copied over it at `offset`: a written byte inside the range,
    a byte of the image outside it. -/
structure Merged (img : Image) (host : Host) (offset : Nat) (bytes : Bytes) (s : Nat) (v : Bytes) :
    Prop where
  start : 512 * s < img.size
  length : v.length = min 512 (img.size - 512 * s)
  written : ∀ i, i < v.length → offset ≤ 512 * s + i → 512 * s + i < offset + bytes.length →
    v[i]? = bytes[512 * s + i - offset]?
  old : ∀ i, i < v.length → ¬ (offset ≤ 512 * s + i ∧ 512 * s + i < offset + bytes.length) →
    ∃ x, v[i]? = some x ∧ img.Shows P host (512 * s + i) x

variable (P) in
/-- `dirty` is the overlay of `img` after `bytes` was written at `offset`. -/
structure Spliced (img : Image) (host : Host) (offset : Nat) (bytes : Bytes) (dirty : Dirty) :
    Prop where
  touched : ∀ s, Touched offset bytes.length s →
    ∃ v, dirty[s]? = some v ∧ img.Merged P host offset bytes s v
  untouched : ∀ s, ¬ Touched offset bytes.length s → dirty[s]? = img.dirty[s]?

variable (P) in
/-- The staging map once the bytes before `done` are staged. -/
structure Staged (img : Image) (host : Host) (offset : Nat) (bytes : Bytes) (done : Nat)
    (staged : Dirty) : Prop where
  touched : ∀ s, Touched offset done s →
    ∃ v, staged[s]? = some v ∧ img.Merged P host offset bytes s v
  untouched : ∀ s, ¬ Touched offset done s → staged[s]? = none

theorem getElem?_extend (dirty staged : Dirty) (s : Nat) :
    (Engine.extend dirty staged)[s]? = (staged[s]?).or dirty[s]? := by
  unfold Engine.extend
  cases h : staged[s]? with
  | some v =>
    have hmem : (s, v) ∈ staged.toList := Std.TreeMap.mem_toList_iff_getElem?_eq_some.mpr h
    rw [Std.TreeMap.getElem?_insertMany_list_of_mem Std.ReflCmp.compare_self
      Std.TreeMap.distinct_keys_toList hmem]
    rfl
  | none =>
    have hnot : (staged.toList.map Prod.fst).contains s = false := by
      rw [Bool.eq_false_iff]
      intro hc
      obtain ⟨⟨k, v⟩, hmem, hk⟩ := List.mem_map.mp (List.contains_iff_mem.mp hc)
      dsimp only at hk
      subst hk
      rw [Std.TreeMap.mem_toList_iff_getElem?_eq_some.mp hmem] at h
      cases h
    rw [Std.TreeMap.getElem?_insertMany_list_of_contains_eq_false hnot]
    rfl

/-- Publishing the finished staging map is a splice. -/
theorem Staged.spliced {img : Image} {host : Host} {offset : Nat} {bytes : Bytes} {staged : Dirty}
    (h : img.Staged P host offset bytes bytes.length staged) :
    img.Spliced P host offset bytes (Engine.extend img.dirty staged) where
  touched := by
    intro s hs
    obtain ⟨v, hv, hm⟩ := h.touched s hs
    refine ⟨v, ?_, hm⟩
    rw [getElem?_extend, hv]
    rfl
  untouched := by
    intro s hs
    rw [getElem?_extend, h.untouched s hs]
    rfl

/-- One more sector in the staging map. -/
theorem Staged.insert {img : Image} {host : Host} {offset done n : Nat} {bytes v : Bytes}
    {staged : Dirty} (h : img.Staged P host offset bytes done staged) (hn : 0 < n)
    (hinside : (offset + done) % 512 + n ≤ 512)
    (hm : img.Merged P host offset bytes ((offset + done) / 512) v) :
    img.Staged P host offset bytes (done + n) (staged.insert ((offset + done) / 512) v) where
  touched := by
    intro s hs
    unfold Touched at hs
    by_cases hsec : s = (offset + done) / 512
    · subst hsec
      exact ⟨v, Std.TreeMap.getElem?_insert_self, hm⟩
    · rw [Std.TreeMap.getElem?_insert, if_neg (by rw [compare_eq_iff_eq]; omega)]
      refine h.touched s ?_
      unfold Touched
      omega
  untouched := by
    intro s hs
    unfold Touched at hs
    rw [Std.TreeMap.getElem?_insert, if_neg (by rw [compare_eq_iff_eq]; omega)]
    refine h.untouched s ?_
    unfold Touched
    omega

/-! ## §2. The staging loop. -/

/-- The old bytes a sector is merged into: any bytes of the right length when the sector is
    written whole, the bytes of the image otherwise. -/
theorem wp_oldSector {host : Host} {io : Io} (hio : io.Within host) {img : Image} {s : Image × Nat}
    (hk : Kept P host img s.1) {start actual : Nat} {whole : Bool} :
    wp (Engine.oldSector P io start actual whole)
      (fun v s' => v.length = actual ∧ (whole = false → img.Shown P host start actual v)
        ∧ Kept P host img s'.1)
      (fun e s' => e.Clean ∧ Kept P host img s'.1) s := by
  obtain ⟨hlike, hwf⟩ := hk
  unfold Engine.oldSector
  cases whole with
  | true =>
    exact ⟨List.length_replicate, (by intro h; cases h), hlike, hwf⟩
  | false =>
    refine wp_mono (wp_read hio hwf) ?_ ?_
    · rintro v s' ⟨-, hlen, hshown, hlike', hwf'⟩
      refine ⟨hlen, fun _ => ?_, hlike.trans hlike', hwf'⟩
      rw [hlike] at hshown
      exact hshown
    · rintro e s' ⟨he, hlike', hwf'⟩
      exact ⟨he, hlike.trans hlike', hwf'⟩

/-- Copying the written bytes over the old sector merges them. -/
theorem merged_splice {img : Image} {host : Host} {offset done n : Nat} {bytes v : Bytes}
    (hbound : offset + bytes.length ≤ img.size) (hdone : done < bytes.length)
    (haligned : done = 0 ∨ (offset + done) % 512 = 0)
    (hn : n = min (min 512 (img.size - 512 * ((offset + done) / 512)) - (offset + done) % 512)
      (bytes.length - done))
    (hlen : v.length = min 512 (img.size - 512 * ((offset + done) / 512)))
    (hold : ¬ ((offset + done) % 512 = 0 ∧ n = v.length) →
      img.Shown P host (512 * ((offset + done) / 512)) v.length v) :
    img.Merged P host offset bytes ((offset + done) / 512)
      (splice v ((offset + done) % 512) (slice bytes done n)) := by
  have hsrc : (slice bytes done n).length = n := by
    rw [length_slice]; omega
  have hfit : (splice v ((offset + done) % 512) (slice bytes done n)).length = v.length :=
    length_splice (by omega)
  refine ⟨by omega, hfit.trans hlen, ?_, ?_⟩
  · intro i hi hlo hhi
    rw [hfit] at hi
    rw [getElem?_splice _ _ _ _ (by omega), hsrc, if_neg (by omega), if_pos (by omega),
      getElem?_slice, if_pos (by omega)]
    congr 1
    omega
  · intro i hi hout
    rw [hfit] at hi
    -- a sector written whole has no old byte
    have hpart : ¬ ((offset + done) % 512 = 0 ∧ n = v.length) := by
      rintro ⟨h0, hwhole⟩
      omega
    obtain ⟨x, hx, hshow⟩ := hold hpart i hi
    refine ⟨x, ?_, hshow⟩
    rw [getElem?_splice _ _ _ _ (by omega), hsrc]
    by_cases h1 : i < (offset + done) % 512
    · rw [if_pos h1, hx]
    · rw [if_neg h1, if_neg (by omega), hx]

/-- **The staging loop.**  Every turn stages one sector and advances by at least one byte. -/
theorem wp_stageLoop {host : Host} {io : Io} (hio : io.Within host) {img : Image}
    (hsize : img.size ≤ MAX_SIZE) {offset : Nat} {bytes : Bytes}
    (hbound : offset + bytes.length ≤ img.size) :
    ∀ (fuel done : Nat) (staged : Dirty) (s : Image × Nat), Kept P host img s.1 →
      done ≤ bytes.length → bytes.length ≤ done + fuel →
      (done = 0 ∨ done = bytes.length ∨ (offset + done) % 512 = 0) →
      img.Staged P host offset bytes done staged →
      wp (Engine.stageLoop P io offset bytes fuel done staged)
        (fun staged' s' => img.Staged P host offset bytes bytes.length staged'
          ∧ Kept P host img s'.1)
        (fun e s' => e.Clean ∧ Kept P host img s'.1) s := by
  intro fuel
  induction fuel with
  | zero =>
    intro done staged s hk hle hfuel _ hst
    have hend : done = bytes.length := by omega
    unfold Engine.stageLoop
    rw [if_neg (by omega), wp_pure]
    exact ⟨hend ▸ hst, hk⟩
  | succ fuel ih =>
    intro done staged s hk hle hfuel haligned hst
    unfold Engine.stageLoop
    by_cases hlt : done < bytes.length
    · rw [if_pos hlt, wp_bind]
      refine wp_check io ?_ (fun e => ⟨trivial, hk⟩)
      simp only [self, wp_bind, wp_get, wp_pure]
      have hsz : s.1.size = img.size := by rw [hk.1]
      have hmul : (offset + done) / 512 * 512 < 2 ^ 64 := by
        have hmax : MAX_SIZE < 2 ^ 64 := by decide
        omega
      rw [umul_eq hmul, wp_pure, usub_eq (by omega), wp_pure, hsz, usub_eq (by omega), wp_pure,
        usub_eq (by omega), wp_pure, usub_eq (by omega), wp_pure]
      -- the same numbers, without the source's detour through `start`
      rw [show offset + done - (offset + done) / 512 * 512 = (offset + done) % 512 by omega,
        show min (img.size - (offset + done) / 512 * 512) 512
          = min 512 (img.size - 512 * ((offset + done) / 512)) by omega]
      set actual := min 512 (img.size - 512 * ((offset + done) / 512)) with hactual
      set n := min (actual - (offset + done) % 512) (bytes.length - done) with hn
      refine wp_mono (wp_oldSector hio (s := (s.1, s.2 + 1)) hk) ?_ (fun _ _ h => h)
      rintro v s' ⟨hvlen, hshown, hk'⟩
      rw [index_eq (by omega) (by omega), wp_pure,
        copyFromSlice_eq (by omega) (by omega) (by rw [length_slice]; omega), wp_pure,
        Nat.add_sub_cancel_left]
      refine ih _ _ _ hk' (by omega) (by omega) (by omega) ?_
      refine hst.insert (by omega) (by omega)
        (merged_splice hbound hlt (by omega) hn (hvlen.trans hactual) ?_)
      intro hpart
      rw [Nat.mul_comm, hvlen]
      refine hshown ?_
      rw [hvlen] at hpart
      simpa using hpart
    · have hend : done = bytes.length := by omega
      rw [if_neg hlt, wp_pure]
      exact ⟨hend ▸ hst, hk⟩

/-- **A write publishes everything or nothing.**  On success the overlay is spliced (an empty
    write changes nothing at all); on any stop only the cache has changed. -/
theorem wp_writeImage {host : Host} {io : Io} (hio : io.Within host) {s : Image × Nat}
    (hwf : s.1.WF P host) {offset : Nat} {bytes : Bytes} :
    wp (Engine.writeImage P io offset bytes)
      (fun wrote s' => offset + bytes.length ≤ s.1.size ∧
        ((wrote = false ∧ bytes = [] ∧ s'.1 = s.1) ∨
          (wrote = true ∧ bytes ≠ [] ∧ ∃ img dirty, Kept P host s.1 img
            ∧ s.1.Spliced P host offset bytes dirty ∧ s'.1 = { img with dirty })))
      (fun e s' => e.Clean ∧ Kept P host s.1 s'.1) s := by
  unfold Engine.writeImage
  simp only [self, bounds, wp_bind, wp_get, wp_pure]
  refine wp_require (fun hb => ?_) (fun _ => ⟨trivial, Like.refl _, hwf⟩)
  refine wp_check io ?_ (fun e => ⟨trivial, Like.refl _, hwf⟩)
  cases bytes with
  | nil => exact ⟨by simp at hb ⊢; omega, .inl ⟨rfl, rfl, rfl⟩⟩
  | cons x rest =>
    simp only [List.isEmpty_cons, Bool.false_eq_true, if_false, wp_bind]
    have hempty : s.1.Staged P host offset (x :: rest) 0 ∅ := by
      refine ⟨fun t ht => ?_, fun t _ => Std.TreeMap.getElem?_emptyc⟩
      unfold Touched at ht
      omega
    refine wp_mono (wp_stageLoop hio hwf.size_le (by omega) _ 0 ∅ (s.1, s.2 + 1)
      ⟨Like.refl _, hwf⟩ (by omega) (by omega) (.inl rfl) hempty) ?_ (fun _ _ h => h)
    rintro staged s' ⟨hst, hk⟩
    refine wp_check io ?_ (fun e => ⟨trivial, hk⟩)
    simp only [wp_modify, wp_pure]
    have hd : s'.1.dirty = s.1.dirty := by rw [hk.1]
    refine ⟨by omega, .inr ⟨trivial, by simp, s'.1, _, hk, hst.spliced, ?_⟩⟩
    rw [hd]

/-! ## §3. What a splice means. -/

theorem Spliced.wf {img : Image} {host : Host} {offset : Nat} {bytes : Bytes} {dirty : Dirty}
    (h : img.Spliced P host offset bytes dirty) (hwf : img.WF P host) :
    ∀ s b, dirty[s]? = some b → 512 * s < img.size ∧ b.length = min 512 (img.size - 512 * s) := by
  intro s b hb
  by_cases ht : Touched offset bytes.length s
  · obtain ⟨v, hv, hm⟩ := h.touched s ht
    rw [hv] at hb
    injection hb with hb
    rw [← hb]
    exact ⟨hm.start, hm.length⟩
  · rw [h.untouched s ht] at hb
    exact hwf.dirty s b hb

/-- **The content after a write is the splice of the content before it.** -/
theorem Spliced.content {img : Image} {host : Host} {base : Bytes} (ho : img.Over P host base)
    {offset : Nat} {bytes : Bytes} {dirty : Dirty} (hbound : offset + bytes.length ≤ img.size)
    (h : img.Spliced P host offset bytes dirty) :
    ({ img with dirty } : Image).content base = splice (img.content base) offset bytes := by
  refine List.ext_getElem? fun p => ?_
  rw [getElem?_content, getElem?_splice _ _ _ _ (by rw [length_content]; omega), getElem?_content]
  dsimp only
  by_cases hp : p < img.size
  · rw [if_pos hp, if_pos hp]
    by_cases ht : Touched offset bytes.length (p / 512)
    · obtain ⟨v, hv, hm⟩ := h.touched _ ht
      have hlen := hm.length
      have hi : p % 512 < v.length := by omega
      have hpos : 512 * (p / 512) + p % 512 = p := Nat.div_add_mod p 512
      have hval : v[p % 512]? = some (overlay dirty (fun p => base.getD p 0) p) :=
        overlay_of_dirty hv hi
      rw [← hval]
      by_cases hin : offset ≤ p ∧ p < offset + bytes.length
      · rw [if_neg (by omega), if_pos hin.2, hm.written _ hi (by omega) (by omega), hpos]
      · obtain ⟨x, hx, hshow⟩ := hm.old _ hi (by omega)
        rw [hpos] at hshow
        rw [hx, hshow.eq_overlay ho]
        by_cases h1 : p < offset
        · rw [if_pos h1]
        · rw [if_neg h1, if_neg (by omega)]
    · have hsame : overlay dirty (fun p => base.getD p 0) p
          = overlay img.dirty (fun p => base.getD p 0) p := by
        unfold overlay
        rw [h.untouched _ ht]
      unfold Touched at ht
      rw [hsame]
      by_cases h1 : p < offset
      · rw [if_pos h1]
      · rw [if_neg h1, if_neg (by omega)]
  · rw [if_neg hp, if_neg hp, if_neg (by omega), if_neg (by omega)]

/-! ## §4. The comparison loop. -/

variable (P) in
/-- Dirty sector `s` with bytes `b` equals the same sector of an authentic chunk. -/
def SameAsBase (img : Image) (host : Host) (s : Nat) (b : Bytes) : Prop :=
  ∃ chunk, img.Authentic P host (s / 128) chunk ∧ slice chunk (s % 128 * 512) b.length = b

variable (P) in
/-- No dirty sector differs from the base. -/
def Pristine (img : Image) (host : Host) : Prop :=
  ∀ s b, img.dirty[s]? = some b → img.SameAsBase P host s b

variable (P) in
/-- Some dirty sector differs from the base. -/
def Differs (img : Image) (host : Host) : Prop :=
  ∃ s b chunk, img.dirty[s]? = some b ∧ img.Authentic P host (s / 128) chunk
    ∧ slice chunk (s % 128 * 512) b.length ≠ b

theorem Like.pristine {img img' : Image} (h : Like img img') {host : Host}
    (hp : img.Pristine P host) : img'.Pristine P host := by
  rw [h]
  exact hp

/-- The content of a pristine image is its base. -/
theorem Pristine.content {img : Image} {host : Host} {base : Bytes} (ho : img.Over P host base)
    (hwf : img.WF P host) (h : img.Pristine P host) : img.content base = base := by
  refine List.ext_getElem? fun p => ?_
  rw [getElem?_content]
  have hlen := ho.length_base
  by_cases hp : p < img.size
  · rw [if_pos hp]
    have hbase : base[p]? = some (base.getD p 0) := by
      simp [List.getElem?_eq_getElem (show p < base.length by omega)]
    rw [hbase]
    cases hd : img.dirty[p / 512]? with
    | none => rw [overlay_of_clean hd]
    | some b =>
      obtain ⟨hstart, hblen⟩ := hwf.dirty _ _ hd
      obtain ⟨chunk, hchunk, hsame⟩ := h _ _ hd
      have hi : p % 512 < b.length := by omega
      rw [← overlay_of_dirty hd hi, ← hbase]
      have hat : b[p % 512]? = chunk[p / 512 % 128 * 512 + p % 512]? := by
        have hget : (slice chunk (p / 512 % 128 * 512) b.length)[p % 512]? = b[p % 512]? := by
          rw [hsame]
        rw [← hget, getElem?_slice, if_pos hi]
      have hclen := hchunk.2.1
      rw [ho.authentic _ _ hchunk, getElem?_slice, if_pos (by simp only [chunkLen, CHUNK]; omega)]
        at hat
      rw [hat]
      congr 1
      simp only [CHUNK]
      omega
  · rw [if_neg hp, List.getElem?_eq_none (by omega)]

variable (P) in
/-- The state of the comparison loop after the sectors `visited`: the verdict so far, and the
    chunk at hand. -/
structure Compared (img : Image) (host : Host) (visited : List Nat) (acc : Engine.Comparison) :
    Prop where
  same : acc.changed = false → ∀ s ∈ visited, ∀ b, img.dirty[s]? = some b →
    img.SameAsBase P host s b
  differs : acc.changed = true → img.Differs P host
  group : ∀ g, acc.group = some g → img.Authentic P host g acc.original

theorem wp_refreshGroup {host : Host} {io : Io} (hio : io.Within host) {img : Image}
    {s : Image × Nat} (hk : Kept P host img s.1) {visited : List Nat} {acc : Engine.Comparison}
    (hacc : img.Compared P host visited acc) (g : Nat) :
    wp (Engine.compareSector.refreshGroup P io acc g)
      (fun acc' s' => img.Compared P host visited acc'
        ∧ img.Authentic P host g acc'.original ∧ Kept P host img s'.1)
      (fun e s' => e.Clean ∧ Kept P host img s'.1) s := by
  obtain ⟨hlike, hwf⟩ := hk
  unfold Engine.compareSector.refreshGroup
  by_cases hg : acc.group = some g
  · rw [if_pos hg, wp_pure]
    exact ⟨hacc, hacc.group g hg, hlike, hwf⟩
  · rw [if_neg hg, wp_bind]
    refine wp_mono (wp_original hio hwf) ?_ ?_
    · rintro chunk s' ⟨hauth, hlike', hwf'⟩
      have hauth := (hlike.authentic P).mp hauth
      refine ⟨⟨hacc.same, hacc.differs, ?_⟩, hauth, hlike.trans hlike', hwf'⟩
      intro g' hg'
      obtain rfl : g = g' := Option.some.inj hg'
      exact hauth
    · rintro e s' ⟨he, hlike', hwf'⟩
      exact ⟨he, hlike.trans hlike', hwf'⟩

/-- **The comparison loop decides whether the overlay changed anything.** -/
theorem wp_compareSectors {host : Host} {io : Io} (hio : io.Within host) {s : Image × Nat}
    (hwf : s.1.WF P host) :
    wp (Engine.compareSectors P io)
      (fun changed s' => (changed = false → s.1.Pristine P host)
        ∧ (changed = true → s.1.Differs P host) ∧ Kept P host s.1 s'.1)
      (fun e s' => e.Clean ∧ Kept P host s.1 s'.1) s := by
  unfold Engine.compareSectors
  simp only [self, wp_bind, wp_get, wp_pure]
  have hstart : s.1.Compared P host [] { changed := false, group := none, original := [] } :=
    ⟨(by intro _ t ht; cases ht), (by intro h; cases h), (by intro g hg; cases hg)⟩
  refine wp_mono (wp_foldlM (Engine.compareSector P io)
    (fun visited acc s' => s.1.Compared P host visited acc ∧ Kept P host s.1 s'.1)
    s.1.dirty.keys ?_ _ _ ⟨hstart, Like.refl _, hwf⟩) ?_ (fun _ _ h => h)
  · -- one sector
    intro visited sector rest acc s' hsplit hinv
    obtain ⟨hacc, hk⟩ := hinv
    have hmem : sector ∈ s.1.dirty := by
      rw [← Std.TreeMap.mem_keys, hsplit]
      simp
    obtain ⟨b, hb⟩ := Option.isSome_iff_exists.mp
      (Std.TreeMap.isSome_getElem?_iff_mem.mpr hmem)
    obtain ⟨hsec, hblen⟩ := hwf.dirty _ _ hb
    unfold Engine.compareSector
    rw [wp_bind]
    refine wp_check io ?_ (fun e => ⟨trivial, hk⟩)
    rw [wp_bind]
    -- The original of the group is read once, and kept while the group lasts.
    refine wp_mono (wp_refreshGroup hio (s := (s'.1, s'.2 + 1)) hk hacc (sector / 128)) ?_
      (fun _ _ h => h)
    rintro acc' s'' ⟨hacc', hauth, hk'⟩
    have hd : s''.1.dirty = s.1.dirty := by rw [hk'.1]
    have hclen := hauth.2.1
    simp only [chunkLen, CHUNK] at hclen
    simp only [self, wp_bind, wp_get, wp_pure]
    rw [hd, hb, unwrap_some, wp_pure, index_eq (by omega) (by omega), wp_pure,
      Nat.add_sub_cancel_left]
    refine ⟨⟨?_, ?_, hacc'.group⟩, hk'⟩
    · intro hch t ht b' hb'
      obtain ⟨hold, heq⟩ := Bool.or_eq_false_iff.mp hch
      rcases List.mem_append.mp ht with h | h
      · exact hacc'.same hold t h b' hb'
      · rw [List.mem_singleton] at h
        subst h
        rw [hb] at hb'
        injection hb' with hb'
        subst hb'
        exact ⟨acc'.original, hauth, by simpa using heq⟩
    · intro hch
      rcases Bool.or_eq_true_iff.mp hch with h | h
      · exact hacc'.differs h
      · exact ⟨sector, b, acc'.original, hb, hauth, by simpa using h⟩
  · rintro acc s' ⟨hacc, hk⟩
    refine ⟨?_, hacc.differs, hk⟩
    intro hch t b hb
    refine hacc.same hch t ?_ b hb
    rw [Std.TreeMap.mem_keys, ← Std.TreeMap.isSome_getElem?_iff_mem, hb]
    rfl

end Image

end My98.Disk
