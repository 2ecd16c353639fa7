/-
  My98.Disk.Overlay — the overlay codec of machine states
  (`src/disk/src/snapshot.rs`: `state_overlay`, `fork_state`).

  A machine state carries the written sectors of its disk as a byte string.  `encode` is the
  wire format, `Overlay` the lists it may spell: sectors strictly increasing, inside the
  image, each with exactly the bytes of its sector.

    • `parseOverlay_iff`  — the parser accepts EXACTLY the encodings of overlays;
    • `toList_overlay`    — the map it builds spells the same bytes again;
    • `content_overlay`   — over a base, that map shows the base with the sectors copied in;
    • `overlay_exact`     — the calls: `fork_state` of an engine over `base`, and of the
      overlay of another engine over the same base.
-/
import My98.Disk.Device

namespace My98.Disk

open My98.Lib My98.Crypto

variable {P : Primitives}

/-! ## §1. The format. -/

/-- One record: sector LE64, length LE32, bytes. -/
def record (entry : Nat × Bytes) : Bytes :=
  leBytes 8 entry.1 ++ leBytes 4 entry.2.length ++ entry.2

/-- The records one after another. -/
def encode (entries : List (Nat × Bytes)) : Bytes := entries.flatMap record

/-- `bytes` is a sector of an image of `size` bytes; the last sector may be short. -/
def Fits (size : Nat) (entry : Nat × Bytes) : Prop :=
  512 * entry.1 < size ∧ entry.2.length = min 512 (size - 512 * entry.1)

/-- Sectors of an image of `size` bytes, strictly increasing. -/
structure Overlay (size : Nat) (entries : List (Nat × Bytes)) : Prop where
  increasing : entries.Pairwise fun a b => a.1 < b.1
  fits : ∀ entry ∈ entries, Fits size entry

theorem length_record (entry : Nat × Bytes) : (record entry).length = 12 + entry.2.length := by
  simp [record]
  omega

theorem encode_cons (entry : Nat × Bytes) (entries : List (Nat × Bytes)) :
    encode (entry :: entries) = record entry ++ encode entries := rfl

/-- The three fields are found where the parser looks for them. -/
theorem record_fields {size : Nat} (hsize : size ≤ MAX_SIZE) {entry : Nat × Bytes}
    (h : Fits size entry) (rest : Bytes) :
    leNat (slice (record entry ++ rest) 0 8) = entry.1 ∧
      leNat (slice (record entry ++ rest) 8 4) = entry.2.length ∧
      (record entry ++ rest).drop 12 = entry.2 ++ rest := by
  have hmax : MAX_SIZE = 2 ^ 40 := rfl
  obtain ⟨hstart, hlen⟩ := h
  have hparts : record entry ++ rest
      = leBytes 8 entry.1 ++ (leBytes 4 entry.2.length ++ (entry.2 ++ rest)) := by
    simp [record]
  have h8 : (leBytes 8 entry.1).length = 8 := length_leBytes 8 _
  have h4 : (leBytes 4 entry.2.length).length = 4 := length_leBytes 4 _
  rw [hparts]
  refine ⟨?_, ?_, ?_⟩
  · rw [slice_append_left (by omega), slice_self h8, leNat_leBytes 8 _ (by omega)]
  · rw [slice_append_right (by omega), h8, slice_append_left (by omega), slice_self h4,
      leNat_leBytes 4 _ (by omega)]
  · rw [← List.append_assoc, List.drop_left' (by simp)]

/-- Twelve bytes that are read as two numbers are the encoding of these. -/
theorem eq_record {bytes : Bytes} (h : 12 ≤ bytes.length)
    (hlen : leNat (slice bytes 8 4) ≤ (bytes.drop 12).length) :
    bytes = record (leNat (slice bytes 0 8), slice (bytes.drop 12) 0 (leNat (slice bytes 8 4)))
      ++ (bytes.drop 12).drop (leNat (slice bytes 8 4)) := by
  have h8 : (slice bytes 0 8).length = 8 := length_slice_of_le (by omega)
  have h4 : (slice bytes 8 4).length = 4 := length_slice_of_le (by omega)
  have hn : (slice (bytes.drop 12) 0 (leNat (slice bytes 8 4))).length = leNat (slice bytes 8 4) :=
    length_slice_of_le (by omega)
  have henc8 := leBytes_leNat (slice bytes 0 8)
  have henc4 := leBytes_leNat (slice bytes 8 4)
  rw [h8] at henc8
  rw [h4] at henc4
  unfold record
  dsimp only
  rw [hn, henc8, henc4]
  show bytes = bytes.take 8 ++ (bytes.drop 8).take 4 ++ (bytes.drop 12).take _ ++ _
  rw [List.append_assoc, List.append_assoc, List.take_append_drop,
    show bytes.drop 12 = (bytes.drop 8).drop 4 by rw [List.drop_drop], List.take_append_drop,
    List.take_append_drop]

/-! ## §2. The parser accepts exactly the format. -/

/-- Insert the records in order. -/
def insertAll (dirty : Dirty) (entries : List (Nat × Bytes)) : Dirty :=
  entries.foldl (fun d entry => d.insert entry.1 entry.2) dirty

theorem insertAll_cons (dirty : Dirty) (entry : Nat × Bytes) (entries : List (Nat × Bytes)) :
    insertAll dirty (entry :: entries) = insertAll (dirty.insert entry.1 entry.2) entries := rfl

/-- What the parser accepts is a list of records in order, and it inserts them in order. -/
theorem parseOverlay_sound {size : Nat} : ∀ (fuel : Nat) (previous : Option Nat) (dirty : Dirty)
    (bytes : Bytes) (out : Dirty), Engine.parseOverlay size fuel previous dirty bytes = .ok out →
    ∃ entries, Overlay size entries ∧ (∀ p ∈ previous, ∀ entry ∈ entries, p < entry.1) ∧
      bytes = encode entries ∧ out = insertAll dirty entries := by
  intro fuel
  induction fuel with
  | zero =>
    intro previous dirty bytes out h
    unfold Engine.parseOverlay at h
    split at h
    next hempty =>
      rw [List.isEmpty_iff] at hempty
      exact ⟨[], ⟨.nil, by simp⟩, by simp, hempty, (Except.ok.inj h).symm⟩
    · cases h
  | succ fuel ih =>
    intro previous dirty bytes out h
    unfold Engine.parseOverlay at h
    split at h
    next hempty =>
      rw [List.isEmpty_iff] at hempty
      exact ⟨[], ⟨.nil, by simp⟩, by simp, hempty, (Except.ok.inj h).symm⟩
    · split at h
      · cases h
      next hlong =>
        dsimp only at h
        split at h
        · cases h
        · split at h
          · cases h
          next hvalid =>
            simp only [not_or, not_exists, not_and, not_le, not_lt, ne_eq, not_not] at hvalid
            obtain ⟨hstart, hprev, hlen, hfits⟩ := hvalid
            -- the record just read is the least, the rest comes from the induction
            obtain ⟨entries, hover, hafter, hrest, hout⟩ := ih _ _ _ _ h
            have h12 : 12 ≤ bytes.length := by omega
            have hbytes := eq_record h12 hfits
            have hentry : (slice (bytes.drop 12) 0 (leNat (slice bytes 8 4))).length
                = leNat (slice bytes 8 4) := length_slice_of_le (by omega)
            refine ⟨(leNat (slice bytes 0 8), _) :: entries, ⟨?_, ?_⟩, ?_, ?_, hout⟩
            · exact List.pairwise_cons.mpr ⟨hafter _ rfl, hover.increasing⟩
            · refine List.forall_mem_cons.mpr ⟨⟨?_, ?_⟩, hover.fits⟩
              · dsimp only
                omega
              · exact hentry.trans (by dsimp only; omega)
            · intro p hp
              have hlt := hprev p hp
              refine List.forall_mem_cons.mpr ⟨hlt, ?_⟩
              intro entry hentry
              exact hlt.trans (hafter _ rfl entry hentry)
            · rw [encode_cons, ← hrest]
              exact hbytes

/-- Every list of records in order is accepted. -/
theorem parseOverlay_complete {size : Nat} (hsize : size ≤ MAX_SIZE)
    (entries : List (Nat × Bytes)) : ∀ (fuel : Nat) (previous : Option Nat) (dirty : Dirty),
    Overlay size entries → (∀ p ∈ previous, ∀ entry ∈ entries, p < entry.1) →
    (encode entries).length ≤ fuel →
    Engine.parseOverlay size fuel previous dirty (encode entries) = .ok (insertAll dirty entries) := by
  induction entries with
  | nil =>
    intro fuel previous dirty _ _ _
    cases fuel with
    | zero => rfl
    | succ fuel => rfl
  | cons entry entries ih =>
    intro fuel previous dirty hover hprev hfuel
    have hmax : MAX_SIZE = 2 ^ 40 := rfl
    have hfit := hover.fits entry List.mem_cons_self
    have hlen : (encode (entry :: entries)).length
        = 12 + entry.2.length + (encode entries).length := by
      rw [encode_cons, List.length_append, length_record]
    obtain ⟨hsector, hcount, hdrop⟩ := record_fields hsize hfit (encode entries)
    obtain ⟨hstart, hbytes⟩ := id hfit
    obtain ⟨hfirst, hrest⟩ := List.pairwise_cons.mp hover.increasing
    cases fuel with
    | zero => omega
    | succ fuel =>
      unfold Engine.parseOverlay
      rw [if_neg (by rw [List.isEmpty_iff_length_eq_zero]; omega), if_neg (by omega)]
      rw [encode_cons] at hlen hfuel ⊢
      dsimp only
      rw [hsector, hcount, hdrop, if_neg (by omega), if_neg]
      · rw [slice_append_left (by omega), slice_zero_length, List.drop_left, insertAll_cons]
        refine ih fuel _ _ ⟨hrest, fun e he => hover.fits e (List.mem_cons_of_mem _ he)⟩ ?_ ?_
        · intro p hp
          obtain rfl := Option.some.inj hp
          exact hfirst
        · omega
      · simp only [not_or, not_exists, not_and, not_le, not_lt, ne_eq, not_not]
        refine ⟨by omega, fun p hp => hprev p hp entry List.mem_cons_self, by omega, ?_⟩
        rw [List.length_append]
        omega

theorem parseOverlay_iff {size : Nat} (hsize : size ≤ MAX_SIZE) {bytes : Bytes} {out : Dirty} :
    Engine.parseOverlay size bytes.length none ∅ bytes = .ok out ↔
      ∃ entries, Overlay size entries ∧ bytes = encode entries ∧ out = insertAll ∅ entries := by
  constructor
  · intro h
    obtain ⟨entries, hover, -, hbytes, hout⟩ := parseOverlay_sound _ _ _ _ _ h
    exact ⟨entries, hover, hbytes, hout⟩
  · rintro ⟨entries, hover, rfl, rfl⟩
    exact parseOverlay_complete hsize entries _ _ _ hover (by simp) le_rfl

/-! ## §3. The map that is built. -/

/-- Inserting distinct sectors into a map that has none of them. -/
theorem getElem?_insertAll (entries : List (Nat × Bytes)) : ∀ (dirty : Dirty),
    entries.Pairwise (fun a b => a.1 < b.1) → (∀ entry ∈ entries, dirty[entry.1]? = none) →
    ∀ s b, (insertAll dirty entries)[s]? = some b ↔ (s, b) ∈ entries ∨ dirty[s]? = some b := by
  induction entries with
  | nil =>
    intro dirty _ _ s b
    simp [insertAll]
  | cons entry entries ih =>
    intro dirty hinc hnew s b
    obtain ⟨hfirst, hrest⟩ := List.pairwise_cons.mp hinc
    have hins : ∀ k, (dirty.insert entry.1 entry.2)[k]?
        = if entry.1 = k then some entry.2 else dirty[k]? := by
      intro k
      rw [Std.TreeMap.getElem?_insert]
      simp only [compare_eq_iff_eq]
    rw [insertAll_cons, ih _ hrest, hins, List.mem_cons]
    · by_cases hs : entry.1 = s
      · subst hs
        have hgone := hnew entry List.mem_cons_self
        have hnot : (entry.1, b) ∉ entries := fun hmem => absurd (hfirst _ hmem) (lt_irrefl _)
        simp [hgone, hnot, Prod.ext_iff, eq_comm]
      · have hne : (s, b) ≠ entry := fun h => hs (by rw [← h])
        simp [hs, hne]
    · intro other hother
      rw [hins, if_neg (hfirst other hother).ne]
      exact hnew other (List.mem_cons_of_mem _ hother)

/-- Two strictly increasing lists with the same members are one list. -/
theorem eq_of_increasing {a b : List (Nat × Bytes)} (ha : a.Pairwise fun x y => x.1 < y.1)
    (hb : b.Pairwise fun x y => x.1 < y.1) (h : ∀ x, x ∈ a ↔ x ∈ b) : a = b := by
  have nodup : ∀ {l : List (Nat × Bytes)}, l.Pairwise (fun x y => x.1 < y.1) → l.Nodup := by
    intro l hl
    refine hl.imp ?_
    intro x y hxy heq
    exact absurd hxy (heq ▸ lt_irrefl _)
  refine List.Perm.eq_of_pairwise ?_ ha hb ((List.perm_ext_iff_of_nodup (nodup ha) (nodup hb)).mpr h)
  intro x y _ _ hxy hyx
  exact absurd (hxy.trans hyx) (lt_irrefl _)

/-- The entries of a map come out in order. -/
theorem increasing_toList (dirty : Dirty) : dirty.toList.Pairwise fun a b => a.1 < b.1 := by
  have h := Std.TreeMap.ordered_keys_toList (t := dirty)
  refine h.imp ?_
  intro a b hab
  exact compare_lt_iff_lt.mp hab

/-- **The map spells the records it was built from.** -/
theorem toList_overlay {size : Nat} {entries : List (Nat × Bytes)} (h : Overlay size entries) :
    (insertAll ∅ entries).toList = entries := by
  refine eq_of_increasing (increasing_toList _) h.increasing ?_
  intro x
  obtain ⟨s, b⟩ := x
  rw [Std.TreeMap.mem_toList_iff_getElem?_eq_some, getElem?_insertAll entries ∅ h.increasing]
  · simp
  · simp

/-- The overlay of a well-formed image is in the format. -/
theorem Image.WF.overlay {img : Image} {host : Host} (h : img.WF P host) :
    Overlay img.size img.dirty.toList where
  increasing := increasing_toList _
  fits := by
    intro entry hentry
    exact h.dirty entry.1 entry.2 (Std.TreeMap.mem_toList_iff_getElem?_eq_some.mp hentry)

theorem overlayBytes_eq (dirty : Dirty) : Engine.overlayBytes dirty = encode dirty.toList := rfl

/-! ## §4. What the records show. -/

/-- `base` with each sector copied over it. -/
def overlaid (base : Bytes) (entries : List (Nat × Bytes)) : Bytes :=
  entries.foldl (fun content entry => splice content (512 * entry.1) entry.2) base

theorem length_overlaid {size : Nat} (entries : List (Nat × Bytes)) : ∀ (base : Bytes),
    base.length = size → (∀ entry ∈ entries, Fits size entry) →
    (overlaid base entries).length = size := by
  induction entries with
  | nil =>
    intro base hbase _
    exact hbase
  | cons entry entries ih =>
    intro base hbase hfits
    obtain ⟨hstart, hlen⟩ := hfits entry List.mem_cons_self
    refine ih _ ?_ fun e he => hfits e (List.mem_cons_of_mem _ he)
    rw [length_splice (by omega), hbase]

/-- Byte by byte: a byte of the record of its sector, or the byte below. -/
theorem getElem?_overlaid {size : Nat} (entries : List (Nat × Bytes)) : ∀ (base : Bytes) (p : Nat),
    base.length = size → p < size → Overlay size entries →
    (∀ b, (p / 512, b) ∈ entries → (overlaid base entries)[p]? = b[p % 512]?) ∧
      ((∀ b, (p / 512, b) ∉ entries) → (overlaid base entries)[p]? = base[p]?) := by
  induction entries with
  | nil =>
    intro base p _ _ _
    exact ⟨fun b hb => absurd hb List.not_mem_nil, fun _ => rfl⟩
  | cons entry entries ih =>
    intro base p hbase hp hover
    obtain ⟨hfirst, hrest⟩ := List.pairwise_cons.mp hover.increasing
    obtain ⟨hstart, hlen⟩ := hover.fits entry List.mem_cons_self
    have hlen' : (splice base (512 * entry.1) entry.2).length = size := by
      rw [length_splice (by omega), hbase]
    obtain ⟨hin, hout⟩ := ih (splice base (512 * entry.1) entry.2) p hlen' hp
      ⟨hrest, fun e he => hover.fits e (List.mem_cons_of_mem _ he)⟩
    have hbyte := getElem?_splice base entry.2 (512 * entry.1) p (by omega)
    constructor
    · intro b hb
      obtain heq | hb := List.mem_cons.mp hb
      · -- the sector of this record is not written again
        subst heq
        have hlast : ∀ b', (p / 512, b') ∉ entries :=
          fun b' hmem => absurd (hfirst _ hmem) (lt_irrefl _)
        refine (hout hlast).trans (hbyte.trans ?_)
        dsimp only at hlen ⊢
        rw [if_neg (by omega), if_pos (by omega)]
        congr 1
        omega
      · exact hin b hb
    · intro hnone
      have hne : p / 512 ≠ entry.1 := by
        intro heq
        refine hnone entry.2 ?_
        rw [heq]
        exact List.mem_cons_self
      refine (hout fun b hb => hnone b (List.mem_cons_of_mem _ hb)).trans (hbyte.trans ?_)
      by_cases hlt : p < 512 * entry.1
      · rw [if_pos hlt]
      · rw [if_neg hlt, if_neg (by omega)]

/-- **The map shows the base with the records copied in.** -/
theorem content_overlay {img : Image} {base : Bytes} (hbase : base.length = img.size)
    (hover : Overlay img.size img.dirty.toList) :
    img.content base = overlaid base img.dirty.toList := by
  refine List.ext_getElem? fun p => ?_
  rw [Image.getElem?_content]
  by_cases hp : p < img.size
  · rw [if_pos hp]
    obtain ⟨hin, hout⟩ := getElem?_overlaid img.dirty.toList base p hbase hp hover
    cases hd : img.dirty[p / 512]? with
    | some b =>
      have hmem := Std.TreeMap.mem_toList_iff_getElem?_eq_some.mpr hd
      obtain ⟨-, hlen⟩ := hover.fits _ hmem
      dsimp only at hlen
      rw [hin b hmem]
      unfold Image.overlay
      rw [hd]
      have hlt : p % 512 < b.length := by omega
      simp [List.getElem?_eq_getElem hlt]
    | none =>
      rw [hout]
      · rw [Image.overlay_of_clean hd]
        simp [List.getElem?_eq_getElem (show p < base.length by omega)]
      · intro b hmem
        rw [Std.TreeMap.mem_toList_iff_getElem?_eq_some.mp hmem] at hd
        cases hd
  · rw [if_neg hp, List.getElem?_eq_none]
    rw [length_overlaid _ _ hbase hover.fits]
    omega

/-! ## §5. The keys of a reachable engine are never wiped. -/

/-- The disk keys an engine holds can be exported. -/
structure Engine.Live (e : Engine P) : Prop where
  image : ∀ img, e.image = some img → img.disk.active = true
  build : ∀ b, e.build = some b → b.disk.active = true

theorem openDescriptor_active {key publicKey : Block 32} {envelope : Bytes} {disk : Crypto.Disk}
    (h : openDescriptor P key publicKey envelope = .ok disk) : disk.active = true := by
  unfold openDescriptor at h
  obtain ⟨bytes, -, h⟩ := ok_of_bind h
  split at h
  · obtain rfl := Except.ok.inj h
    rfl
  · cases h

theorem parseHeader_active {id : Identity P} {b : Bytes} {total size : Nat} {disk : Crypto.Disk}
    (h : parseHeader id b total = .ok (disk, size)) : disk.active = true := by
  unfold parseHeader at h
  obtain ⟨size', -, h⟩ := ok_of_bind h
  obtain ⟨disk', hopen, h⟩ := ok_of_bind h
  obtain ⟨publicKey, -, h⟩ := ok_of_bind h
  obtain ⟨_, -, h⟩ := ok_of_bind h
  obtain ⟨rfl, -⟩ := Prod.mk.inj (Except.ok.inj h)
  have hopen := mapError_eq_ok hopen
  unfold Identity.openDisk at hopen
  obtain ⟨_, -, hopen⟩ := ok_of_bind hopen
  exact openDescriptor_active hopen

section Live

variable {host : Host} {e e' : Engine P}

theorem Engine.Kept.live (hk : e.Kept host e') (h : e.Live) : e'.Live := by
  refine ⟨?_, ?_⟩
  · intro img' hi'
    cases hi : e.image with
    | none =>
      rw [hk.absent hi] at hi'
      cases hi'
    | some img =>
      obtain ⟨img₁, hi₁, hlike, -⟩ := hk.image img hi
      rw [hi₁] at hi'
      obtain rfl := Option.some.inj hi'
      rw [hlike]
      exact h.image img hi
  · intro b hb
    rw [hk.same] at hb
    exact h.build b hb

theorem Engine.Begun.live {raw : Option String} {size : Nat} (hb : e.Begun raw size e')
    (h : e.Live) : e'.Live := by
  obtain ⟨id, disk, salt, header, -, -, -, hactive, -, rfl⟩ := hb
  refine ⟨h.image, ?_⟩
  intro b hb
  obtain rfl := Option.some.inj hb
  exact hactive

theorem Engine.Fed.live {img : Image} {fed fed' : Bytes} {index index' : Nat}
    (hf : e.Fed host img fed index e' fed' index') (h : e.Live) : e'.Live := by
  obtain ⟨-, rfl, -⟩ | ⟨-, e₁, bytes, hk, -, -, rfl, -, -⟩ := hf
  · exact h
  · have h₁ := hk.live h
    exact ⟨h₁.image, h₁.build⟩

/-- A new image with the disk of the old one. -/
theorem Engine.Live.reimage {img img' : Image} (h : e.Live) (hi : e.image = some img)
    (hdisk : img'.disk = img.disk) (i : Image) (h' : some img' = some i) :
    i.disk.active = true := by
  obtain rfl := Option.some.inj h'
  rw [hdisk]
  exact h.image img hi

theorem Engine.Done.live {c : Call} {v : Value} (hd : Done host e c v e') (h : e.Live) :
    e'.Live := by
  cases hd with
  | openDisk _ _ _ _ _ hparse =>
    refine ⟨?_, h.build⟩
    intro img hi
    obtain rfl := Option.some.inj hi
    exact parseHeader_active hparse
  | beginCreate _ hb => exact hb.live h
  | saveChanged hk _ _ hb => exact hb.live (hk.live h)
  | saveUnchanged _ _ hk =>
    have h₁ := hk.live h
    exact ⟨h₁.image, h₁.build⟩
  | acceptUnchanged _ _ hi => exact ⟨h.reimage hi rfl, h.build⟩
  | nextEnd => exact h
  | nextChunk hb _ _ hk =>
    refine ⟨(hk.live h).image, ?_⟩
    intro b' hb'
    obtain rfl := Option.some.inj hb'
    have hactive := h.build _ hb
    exact hactive
  | accept _ hb =>
    refine ⟨?_, ?_⟩
    · intro img hi
      obtain rfl := Option.some.inj hi
      exact h.build _ hb
    · intro b hb
      cases hb
  | cancel =>
    refine ⟨h.image, ?_⟩
    intro b hb
    cases hb
  | read hk => exact hk.live h
  | writeEmpty => exact h
  | write _ hi _ hk =>
    obtain ⟨hlike, -⟩ := hk
    exact ⟨h.reimage hi (by rw [hlike]), h.build⟩
  | discard hi =>
    refine ⟨h.reimage hi rfl, ?_⟩
    intro b hb
    cases hb
  | clearCache =>
    refine ⟨?_, h.build⟩
    intro img' hi'
    obtain ⟨img, hi, rfl⟩ := Option.map_eq_some_iff.mp hi'
    exact h.image img hi
  | verifyStart => exact ⟨h.image, h.build⟩
  | verifyMore _ _ hf => exact hf.live h
  | verifyEnd _ _ hf =>
    have h₁ := hf.live h
    exact ⟨h₁.image, h₁.build⟩

theorem Engine.Stopped.live {c : Call} (hs : Stopped host e c e') (h : e.Live) : e'.Live := by
  cases hs with
  | kept hk => exact hk.live h
  | fed _ _ hf => exact hf.live h

/-- A read-only engine holds the key of the descriptor it opened. -/
theorem wp_openReadOnly_live {io : Io} (hio : io.Within host) {source : String} {total : Nat}
    {readKey : Bytes} {s : Unit × Nat} :
    wp (Engine.openReadOnly P io source total readKey) (fun e _ => e.Live) (fun _ _ => True) s := by
  refine wp_mono (wp_openReadOnly_spec hio) ?_ (fun _ _ _ => trivial)
  intro e _ h
  obtain ⟨capability, b, size, disk, img, -, -, -, -, -, hopen, hkept, rfl⟩ := h.opened
  refine ⟨?_, ?_⟩
  · intro img' hi
    obtain rfl := Option.some.inj hi
    rw [hkept.1]
    exact openDescriptor_active hopen
  · intro b hb
    cases hb

end Live

/-! ## §6. `fork_state`. -/

theorem exportReadKey_active {disk : Crypto.Disk} (h : disk.active = true) :
    disk.exportReadKey = .ok (disk.id.val ++ disk.key.val) := by
  unfold Disk.exportReadKey Crypto.Disk.check
  rw [if_pos h]
  rfl

/-- The exported key is the key of an equal disk. -/
theorem fromReadKey_export {disk : Crypto.Disk} (h : disk.active = true) :
    Disk.fromReadKey (disk.id.val ++ disk.key.val) = .ok disk := by
  have hid := disk.id.property
  have hkey := disk.key.property
  unfold Disk.fromReadKey
  rw [dif_pos (by simp [hid, hkey])]
  simp only [ofSlice_append_left, ofSlice_append_right]
  rw [← h]

/-- The candidate: the same image with another overlay and nothing else in progress. -/
def Engine.forked (e : Engine P) (img : Image) (dirty : Dirty) : Engine P :=
  { identity := e.identity
    image := some { img with dirty, cache := Cache.new }
    build := none
    revision := e.revision + 1
    hash := none
    unchanged := none }

/-- How a parse result becomes the result of `fork_state`. -/
def Engine.forkResult (e : Engine P) (img : Image) (t : Nat) :
    Except Error Dirty → EStateM.Result Stop (Engine P × Nat) (Engine P)
  | .ok dirty => .ok (e.forked img dirty) (e, t)
  | .error err => .error (.error err) (e, t)

/-- `fork_state` is the parser, and nothing happens to the engine it is called on. -/
theorem forkState_eq {e : Engine P} {img : Image} (hlive : e.Live) (hi : e.image = some img)
    (hb : e.build = none) (bytes : Bytes) (t : Nat) :
    Engine.forkState bytes (e, t) =
      e.forkResult img t (Engine.parseOverlay img.size bytes.length none ∅ bytes) := by
  have hactive := hlive.image img hi
  have hexport := exportReadKey_active hactive
  have himport := fromReadKey_export hactive
  unfold Engine.forkState
  show EStateM.bind Engine.self _ (e, t) = _
  simp only [EStateM.bind, Engine.self, get_apply, pure,
    EStateM.pure, bind, require, hb, Option.isNone_none, if_true, hi]
  cases Engine.parseOverlay img.size bytes.length none ∅ bytes with
  | error err => rfl
  | ok dirty =>
    simp only [ofResult, ofCrypto, EStateM.pure, pure, hexport, himport]
    rfl

/-- Whatever engine it is called on and however it ends, `fork_state` leaves it alone. -/
theorem forkState_keeps (bytes : Bytes) (s : Engine P × Nat) :
    wp (Engine.forkState bytes) (fun _ s' => s' = s) (fun _ s' => s' = s) s := by
  unfold Engine.forkState
  rw [wp_bind, Engine.wp_self, wp_bind]
  refine wp_require (fun _ => ?_) (fun _ => rfl)
  cases s.1.image with
  | none => rfl
  | some img =>
    dsimp only
    rw [wp_bind]
    refine wp_ofResult (fun dirty _ => ?_) (fun _ _ => rfl)
    rw [wp_bind]
    refine wp_ofCrypto (fun key _ => ?_) (fun _ => rfl)
    rw [wp_bind]
    exact wp_ofCrypto (fun disk _ => rfl) (fun _ => rfl)

section Fork

variable {host : Host} {e : Engine P} {img : Image}

theorem Reachable.live (h : Reachable host e) : e.Live := by
  induction h with
  | @new username machine password e h =>
    unfold Engine.new at h
    obtain ⟨identity, -, h⟩ := ok_of_bind h
    obtain rfl := Except.ok.inj h
    refine ⟨?_, ?_⟩
    · intro img hi
      cases hi
    · intro b hb
      cases hb
  | openReadOnly hio h =>
    have hlive := wp_of_ok (wp_openReadOnly_live hio) h
    exact hlive
  | @fork bytes t e e' s hr h ih =>
    -- the fork holds the key the engine exported
    cases hb : e.build with
    | some b =>
      unfold Engine.forkState at h
      simp [EStateM.bind, Engine.self, bind, get_apply, pure,
        EStateM.pure, require, hb, fail, throw_apply] at h
    | none =>
      cases hi : e.image with
      | none =>
        unfold Engine.forkState at h
        simp [EStateM.bind, Engine.self, bind, get_apply, pure,
          EStateM.pure, require, hb, hi, throw_apply] at h
      | some img =>
        rw [forkState_eq ih hi hb] at h
        cases hp : Engine.parseOverlay img.size bytes.length none ∅ bytes with
        | error err =>
          rw [hp] at h
          cases h
        | ok dirty =>
          rw [hp] at h
          injection h with h
          subst h
          refine ⟨?_, ?_⟩
          · intro img' hi'
            obtain rfl := Option.some.inj hi'
            exact ih.image img hi
          · intro b hb
            cases hb
  | @step io hio c e hr ih =>
    cases hres : (e.step io c).1 with
    | ok v => exact Engine.Done.live (Engine.step_spec hr.wf hio (Engine.step_eq hres)) ih
    | error st => exact Engine.Stopped.live (Engine.step_spec hr.wf hio (Engine.step_eq hres)).2 ih

/-- Acceptance is membership in the format. -/
theorem forkState_succeeds (hr : Reachable host e) (hi : e.image = some img) (hb : e.build = none)
    (bytes : Bytes) (t : Nat) :
    (∃ f s, Engine.forkState bytes (e, t) = .ok f s) ↔
      ∃ entries, Overlay img.size entries ∧ bytes = encode entries := by
  have hsize := (hr.wf.image img hi).size_le
  rw [forkState_eq hr.live hi hb]
  constructor
  · rintro ⟨f, s, h⟩
    cases hp : Engine.parseOverlay img.size bytes.length none ∅ bytes with
    | error err =>
      rw [hp] at h
      cases h
    | ok dirty =>
      obtain ⟨entries, hover, hbytes, -⟩ := (parseOverlay_iff hsize).mp hp
      exact ⟨entries, hover, hbytes⟩
  · rintro ⟨entries, hover, hbytes⟩
    rw [(parseOverlay_iff hsize).mpr ⟨entries, hover, hbytes, rfl⟩]
    exact ⟨_, _, rfl⟩

/-- The candidate that `fork_state` makes of the records `entries`. -/
theorem forkState_encode (hr : Reachable host e) (hi : e.image = some img) (hb : e.build = none)
    {entries : List (Nat × Bytes)} (hover : Overlay img.size entries) (t : Nat) :
    Engine.forkState (encode entries) (e, t)
      = .ok (e.forked img (insertAll ∅ entries)) (e, t) := by
  rw [forkState_eq hr.live hi hb,
    (parseOverlay_iff (hr.wf.image img hi).size_le).mpr ⟨entries, hover, rfl, rfl⟩]
  rfl

/-- The image of the candidate lies over the same base and shows the records. -/
theorem forked_content {base : Bytes} (ho : img.Over P host base) {entries : List (Nat × Bytes)}
    (hover : Overlay img.size entries) :
    Image.Over P { img with dirty := insertAll ∅ entries, cache := Cache.new } host base ∧
      Image.content { img with dirty := insertAll ∅ entries, cache := Cache.new } base
        = overlaid base entries := by
  refine ⟨⟨ho.length_base, ho.authentic⟩, ?_⟩
  have htoList := toList_overlay hover
  rw [content_overlay]
  · dsimp only
    rw [htoList]
  · exact ho.length_base
  · dsimp only
    rw [htoList]
    exact hover

theorem stateOverlay_ok {t : Nat} {bytes : Bytes} {s : Engine P × Nat} (hi : e.image = some img)
    (h : Engine.stateOverlay (e, t) = .ok bytes s) : bytes = encode img.dirty.toList := by
  have hwp : wp Engine.stateOverlay (fun b _ => b = encode img.dirty.toList) (fun _ _ => True)
      (e, t) := by
    unfold Engine.stateOverlay
    rw [wp_bind]
    refine Engine.wp_owner (fun id _ => ?_) (fun _ => trivial)
    refine Engine.wp_onImage (fun _ => trivial) ?_
    intro img' hi'
    rw [hi] at hi'
    obtain rfl := Option.some.inj hi'
    exact overlayBytes_eq _
  have hbytes := wp_of_ok hwp h
  exact hbytes

/-- An owner can export the overlay of an open image. -/
theorem stateOverlay_owner {id : Identity P} (hid : e.identity = some id) (hi : e.image = some img)
    (t : Nat) : Engine.stateOverlay (e, t) = .ok (encode img.dirty.toList) (e, t) := by
  unfold Engine.stateOverlay Engine.owner
  show EStateM.bind (EStateM.bind Engine.self _) _ (e, t) = _
  simp only [EStateM.bind, Engine.self, get_apply, pure,
    EStateM.pure, bind, hid, Engine.onImage, hi, zoom, Image.self]
  have he : ({ e with identity := some id, image := some img } : Engine P) = e := by
    rw [← hi, ← hid]
  rw [he]
  rfl

end Fork

/-! ## §7. Two engines side by side. -/

/-- Calls on an engine (`false`) and on its fork (`true`) in any order: the results of the
    engine's own calls, and both engines at the end. -/
def runBoth (e f : Engine P) : List (Bool × Io × Call) →
    List (Call × Except Stop Value) × Engine P × Engine P
  | [] => ([], e, f)
  | (true, io, c) :: rest => runBoth e (f.step io c).2 rest
  | (false, io, c) :: rest =>
    ((c, (e.step io c).1) :: (runBoth (e.step io c).2 f rest).1, (runBoth (e.step io c).2 f rest).2)

/-- The engine's own calls. -/
def ownCalls (calls : List (Bool × Io × Call)) : List (Io × Call) :=
  (calls.filter fun call => !call.1).map (·.2)

theorem runBoth_own (calls : List (Bool × Io × Call)) : ∀ e f : Engine P,
    (runBoth e f calls).1 = (e.run (ownCalls calls)).1 ∧
      (runBoth e f calls).2.1 = (e.run (ownCalls calls)).2 := by
  induction calls with
  | nil =>
    intro e f
    exact ⟨rfl, rfl⟩
  | cons call rest ih =>
    intro e f
    obtain ⟨side, io, c⟩ := call
    cases side with
    | true => exact ih e (f.step io c).2
    | false =>
      have hown : ownCalls ((false, io, c) :: rest) = (io, c) :: ownCalls rest := rfl
      rw [hown, Engine.run_cons (Engine.step_eq rfl)]
      obtain ⟨hresults, hengine⟩ := ih (e.step io c).2 f
      refine ⟨?_, hengine⟩
      show (c, (e.step io c).1) :: _ = _
      rw [hresults]

/-- **The overlay codec is exact.**  For every reachable engine with an open image over
    `base`: `fork_state` accepts exactly the format; an accepted string is what the candidate's
    overlay spells, and the candidate is the block device that starts with `base` under these
    sectors.  The overlay of the engine, given to ANY engine over the same base, restores its
    content there.  And the engine that is forked keeps everything, whether the call succeeds
    and whatever is done to the fork afterwards. -/
theorem overlay_exact {host : Host} {e : Engine P} (hr : Reachable host e) {img : Image}
    (hi : e.image = some img) {base : Bytes} (hbase : img.Over P host base) :
    (e.build = none → ∀ bytes t, (∃ f s, Engine.forkState bytes (e, t) = .ok f s) ↔
      ∃ entries, Overlay img.size entries ∧ bytes = encode entries) ∧
    (e.build = none → ∀ entries t, Overlay img.size entries → ∃ f fimg,
      Engine.forkState (encode entries) (e, t) = .ok f (e, t) ∧ f.image = some fimg ∧
        Engine.overlayBytes fimg.dirty = encode entries ∧
        (e.identity.isSome = true →
          ∀ t', Engine.stateOverlay (f, t') = .ok (encode entries) (f, t')) ∧
        fimg.content base = overlaid base entries ∧
        ∀ calls : List (Io × Call), (∀ x ∈ calls, x.1.Within host) →
          (∀ x ∈ calls, x.2.replacesImage = false) →
          ∃ content', Device.Runs base (overlaid base entries) content' (f.run calls).1) ∧
    (∀ bytes t s, Engine.stateOverlay (e, t) = .ok bytes s →
      ∀ (host' : Host) (e' : Engine P) (img' : Image) (t' : Nat), Reachable host' e' →
        e'.image = some img' → e'.build = none → img'.Over P host' base →
        ∃ f fimg, Engine.forkState bytes (e', t') = .ok f (e', t') ∧ f.image = some fimg ∧
          fimg.Over P host' base ∧ fimg.content base = img.content base) ∧
    (∀ bytes t,
      wp (Engine.forkState bytes) (fun _ s => s = (e, t)) (fun _ s => s = (e, t)) (e, t)) ∧
    ∀ (f : Engine P) (calls : List (Bool × Io × Call)),
      (runBoth e f calls).1 = (e.run (ownCalls calls)).1 ∧
        (runBoth e f calls).2.1 = (e.run (ownCalls calls)).2 := by
  refine ⟨fun hb => forkState_succeeds hr hi hb, ?_, ?_, fun bytes t => forkState_keeps bytes _,
    fun f calls => runBoth_own calls e f⟩
  · intro hb entries t hover
    have hfork := forkState_encode hr hi hb hover t
    obtain ⟨hover', hcontent⟩ := forked_content hbase hover
    have hspelled : Engine.overlayBytes (insertAll ∅ entries) = encode entries := by
      rw [overlayBytes_eq, toList_overlay hover]
    refine ⟨_, _, hfork, rfl, hspelled, ?_, hcontent, ?_⟩
    · intro howner t'
      obtain ⟨id, hid⟩ := Option.isSome_iff_exists.mp howner
      have hstate := stateOverlay_owner (e := e.forked img (insertAll ∅ entries)) hid rfl t'
      rw [hstate]
      dsimp only
      rw [toList_overlay hover]
    · intro calls hio hc
      have hreach := Reachable.fork hr hfork
      obtain ⟨content', hruns, -⟩ :=
        run_refines calls hio hc _ (overlaid base entries) hreach.wf ⟨_, rfl, hover', hcontent⟩
      exact ⟨content', hruns⟩
  · intro bytes t s hstate host' e' img' t' hr' hi' hb' hbase'
    have hsize : img'.size = img.size := hbase'.length_base.symm.trans hbase.length_base
    have hover := (hr.wf.image img hi).overlay
    have hcontent := content_overlay hbase.length_base hover
    rw [← hsize] at hover
    obtain ⟨hover', hcontent'⟩ := forked_content hbase' hover
    have hfork := forkState_encode hr' hi' hb' hover t'
    rw [← stateOverlay_ok hi hstate] at hfork
    exact ⟨_, _, hfork, rfl, hover', hcontent'.trans hcontent.symm⟩

/-- The five-byte disk has one sector; a state with another five bytes is accepted. -/
theorem demoEngine_forks : ∃ f s,
    Engine.forkState (encode [(0, [1, 2, 3, 4, 5])]) (demoEngine, 0) = .ok f s := by
  refine ((overlay_exact demoEngine_reachable rfl demoImage_over).1 rfl _ 0).mpr ?_
  refine ⟨[(0, [1, 2, 3, 4, 5])], ⟨List.pairwise_singleton _ _, ?_⟩, rfl⟩
  intro entry hentry
  obtain rfl := List.mem_singleton.mp hentry
  exact ⟨by decide, by decide⟩

end My98.Disk
