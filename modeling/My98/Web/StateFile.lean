/-
  My98.Web.StateFile — a file as `encodeState` writes it.

  The two halves of the round trip meet here: what the writer produces is `Genuine`, and what is
  genuine is read back.  A genuine file is given by its parts; where a reader that has taken some bytes
  from the front of it stands is a matter of arithmetic.

    • `Parts`, `Genuine`  — the file;
    • `Genuine.length`    — how long it is;
    • `Genuine.records`   — bytes from the front of it, up to a record;
    • `Accepted.parts`    — a genuine file has only one reading.
-/
import Mathlib
import My98.Web.StateDecoder

namespace My98.Web.StateFormat

open My98.Lib My98.Lib.JsonText My98.Torrent.DescriptorText My98.Torrent.Formats My98.Web.LoadProfiles

/-! ## §1. The file. -/

/-- The parts of a file, and what it was made of. -/
structure Parts where
  header : Bytes
  sealed : List Bytes
  compressed : Bytes
  metadata : Bytes
  tree : Tree
  state : Bytes
  overlay : Bytes

/-- What was compressed. -/
def Parts.raw (p : Parts) : Bytes := u32 p.metadata.length ++ p.metadata ++ p.state ++ p.overlay

def Parts.file (p : Parts) : Bytes := MAGIC ++ u32 p.header.length ++ p.header ++ p.sealed.flatten

def Parts.sizes (p : Parts) : Sizes := ⟨p.raw.length, p.compressed.length⟩

/-- What `decodeState` is to return. -/
def Parts.decoded (setup : Setup) (p : Parts) : Decoded where
  metadata := p.tree
  state := p.state
  overlay := p.overlay
  stateSha256 := hex (setup.sha256 p.file)

/-- The decompressor gives back what was compressed: whatever it was handed of `compressed`, it gives
    no more than `raw`; it never fails, and it does not end before it has given `raw`. -/
structure Inverts (inflater : Inflater) (compressed raw : Bytes) : Prop where
  emits : ∀ fed given next, fed <+: compressed → given <+: raw → inflater.emits fed given next = true →
    given ++ next <+: raw
  ends : ∀ given, inflater.ends compressed given = true → given = raw
  fails : ∀ fed given e, fed <+: compressed → inflater.fails fed given e = false

/-- **A file as it is written.** -/
structure Genuine (setup : Setup) (p : Parts) : Prop where
  short : 1 ≤ p.header.length ∧ p.header.length ≤ 4096
  header : (parseJson p.header >>= sizesOf) = .ok p.sizes
  base : ∀ h, parseJson p.header = .ok h → sameBase h setup.vault.base = true
  bound : expected p.header.length p.compressed.length ≤ LIMIT + 65536
  count : p.sealed.length = records p.compressed.length
  opened : ∀ (k : Nat) (c : Bytes), p.sealed[k]? = some c →
    setup.vault.openState (context p.header k) c = .ok (slice p.compressed (k * CHUNK) CHUNK) ∧
      c.length = recordSize p.compressed.length k + 62
  prefixed : p.metadata.length ≤ 65536
  metadata : parseJson p.metadata = .ok p.tree
  sections : sectionsOf p.tree p.metadata.length p.raw.length = .ok (p.state.length, p.overlay.length)
  inverts : Inverts setup.inflater p.compressed p.raw

/-! ## §2. Records. -/

/-- All the bytes are in the records. -/
theorem records_cover (packed : Nat) : packed ≤ records packed * CHUNK := by
  unfold records
  have hchunk : 0 < CHUNK := by decide
  have hdiv := Nat.div_add_mod (packed + (CHUNK - 1)) CHUNK
  have hmod := Nat.mod_lt (packed + (CHUNK - 1)) hchunk
  rw [Nat.mul_comm] at hdiv
  omega

/-- How long the first records are. -/
theorem length_records {packed : Nat} {sealed : List Bytes}
    (h : ∀ (k : Nat) (c : Bytes), sealed[k]? = some c → c.length = recordSize packed k + 62) :
    sealed.flatten.length = min packed (sealed.length * CHUNK) + sealed.length * 62 := by
  induction sealed using List.reverseRecOn with
  | nil => simp
  | append_singleton sealed c ih =>
    have hlast : c.length = recordSize packed sealed.length + 62 := by
      refine h sealed.length c ?_
      rw [List.getElem?_append_right (Nat.le_refl _), Nat.sub_self]
      rfl
    have hrest := ih fun k d hk => h k d (by
      rw [List.getElem?_append_left (List.getElem?_eq_some_iff.mp hk).1]
      exact hk)
    rw [List.flatten_append, List.length_append, List.flatten_singleton, hrest, hlast, List.length_append,
      List.length_singleton, recordSize, Nat.add_mul, Nat.add_mul]
    omega

/-- Bytes from the front of records of known lengths are records from their front. -/
theorem flatten_front {l m : List Bytes} (hcount : l.length ≤ m.length)
    (hlength : ∀ (k : Nat) (c d : Bytes), l[k]? = some c → m[k]? = some d → c.length = d.length)
    (h : l.flatten <+: m.flatten) : l <+: m := by
  induction l generalizing m with
  | nil => exact List.nil_prefix
  | cons c l ih =>
    cases m with
    | nil => cases hcount
    | cons d m =>
      obtain ⟨rest, hrest⟩ := h
      rw [List.flatten_cons, List.flatten_cons, List.append_assoc] at hrest
      obtain ⟨rfl, htail⟩ := List.append_inj hrest (hlength 0 c d rfl rfl)
      have hsub := ih (Nat.le_of_succ_le_succ hcount) (fun k a b ha hb => hlength (k + 1) a b ha hb) ⟨rest, htail⟩
      exact List.cons_prefix_cons.mpr ⟨rfl, hsub⟩

/-- What the first records hold is what stands in front. -/
theorem plains_take {compressed : Bytes} {plains : List Bytes}
    (h : ∀ (k : Nat) (b : Bytes), plains[k]? = some b → b = slice compressed (k * CHUNK) CHUNK) :
    plains.flatten = compressed.take (plains.length * CHUNK) := by
  induction plains using List.reverseRecOn with
  | nil => simp
  | append_singleton plains b ih =>
    have hlast : b = slice compressed (plains.length * CHUNK) CHUNK := by
      refine h plains.length b ?_
      rw [List.getElem?_append_right (Nat.le_refl _), Nat.sub_self]
      rfl
    have hrest := ih fun k d hk => h k d (by
      rw [List.getElem?_append_left (List.getElem?_eq_some_iff.mp hk).1]
      exact hk)
    rw [List.flatten_append, List.flatten_singleton, hrest, hlast, List.length_append, List.length_singleton,
      Nat.add_mul, Nat.one_mul, List.take_add, slice]

section Lengths

variable {setup : Setup} {p : Parts}

theorem Genuine.sealedLength (h : Genuine setup p) :
    p.sealed.flatten.length = p.compressed.length + records p.compressed.length * 62 := by
  rw [length_records fun k c hk => (h.opened k c hk).2, h.count, Nat.min_eq_left (records_cover _)]

/-- How long the file is. -/
theorem Genuine.length (h : Genuine setup p) :
    p.file.length = expected p.header.length p.compressed.length := by
  simp only [Parts.file, List.length_append, h.sealedLength, u32, length_leBytes, expected]
  show 8 + 4 + _ + _ = _
  omega

theorem Parts.head (p : Parts) : p.file = (MAGIC ++ u32 p.header.length) ++ (p.header ++ p.sealed.flatten) := by
  rw [Parts.file, List.append_assoc (MAGIC ++ _)]

/-- The header that stands in front of the file is the one that was written. -/
theorem Genuine.same_header (h : Genuine setup p) {head header rest : Bytes} (hhead : HeadOk head header)
    (hfile : head ++ header ++ rest = p.file) :
    head = MAGIC ++ u32 p.header.length ∧ header = p.header ∧ rest = p.sealed.flatten := by
  rw [p.head, List.append_assoc] at hfile
  obtain ⟨hfirst, hrest⟩ := List.append_inj hfile (by
    rw [hhead.length, List.length_append, u32, length_leBytes]
    rfl)
  have hlength : header.length = p.header.length := by
    have hbound := h.short.2
    rw [hhead.size, hfirst, slice, List.drop_left' (by rfl), List.take_of_length_le (by
      rw [u32, length_leBytes]), number, u32, leNat_leBytes 4 _ (by omega)]
  obtain ⟨hsecond, hthird⟩ := List.append_inj hrest hlength
  exact ⟨hfirst, hsecond, hthird⟩

/-- Records that stand behind the header are the ones that were written, and hold what was compressed. -/
theorem Genuine.same_records (h : Genuine setup p) {opened : List (Bytes × Bytes)}
    (hcount : opened.length ≤ records p.compressed.length)
    (hopened : ∀ (k : Nat) (c b : Bytes), opened[k]? = some (c, b) →
      RecordOk setup p.header p.compressed.length k c b)
    (hpre : (opened.map Prod.fst).flatten <+: p.sealed.flatten) :
    (opened.map Prod.snd).flatten = p.compressed.take (opened.length * CHUNK) := by
  have hfirst (k : Nat) (c : Bytes) (hk : (opened.map Prod.fst)[k]? = some c) :
      ∃ b, opened[k]? = some (c, b) := by
    rw [List.getElem?_map] at hk
    obtain ⟨⟨c', b⟩, hpair, rfl⟩ := Option.map_eq_some_iff.mp hk
    exact ⟨b, hpair⟩
  have hsame : opened.map Prod.fst <+: p.sealed := by
    refine flatten_front ?_ (fun k c d hc hd => ?_) hpre
    · rw [List.length_map, h.count]
      exact hcount
    · obtain ⟨b, hpair⟩ := hfirst k c hc
      rw [(hopened k c b hpair).sealed, (h.opened k d hd).2]
  have hplains := @plains_take p.compressed (opened.map Prod.snd) fun k b hk => by
    rw [List.getElem?_map] at hk
    obtain ⟨⟨c, b'⟩, hpair, rfl⟩ := Option.map_eq_some_iff.mp hk
    have hc : (opened.map Prod.fst)[k]? = some c := by rw [List.getElem?_map, hpair]; rfl
    have hsealed : p.sealed[k]? = some c := by
      obtain ⟨rest, hrest⟩ := hsame
      rw [← hrest, List.getElem?_append_left (List.getElem?_eq_some_iff.mp hc).1]
      exact hc
    have hopen := (hopened k c b' hpair).opened
    rw [(h.opened k c hsealed).1] at hopen
    exact (Except.ok.inj hopen).symm
  rw [hplains, List.length_map]

theorem Genuine.all_records (h : Genuine setup p) {opened : List (Bytes × Bytes)}
    (hcount : opened.length = records p.compressed.length)
    (hopened : ∀ (k : Nat) (c b : Bytes), opened[k]? = some (c, b) →
      RecordOk setup p.header p.compressed.length k c b)
    (hpre : (opened.map Prod.fst).flatten <+: p.sealed.flatten) :
    (opened.map Prod.snd).flatten = p.compressed := by
  rw [h.same_records (Nat.le_of_eq hcount) hopened hpre, hcount]
  exact List.take_of_length_le (records_cover _)

/-- The sections of what was compressed can be told apart. -/
theorem Genuine.same_sections (h : Genuine setup p) {metadata state overlay : Bytes} {tree : Tree} {raw : Nat}
    (hbytes : u32 metadata.length ++ metadata ++ state ++ overlay = p.raw) (hraw : raw = p.raw.length)
    (hbound : metadata.length ≤ 65536) (hmetadata : parseJson metadata = .ok tree)
    (hsections : sectionsOf tree metadata.length raw = .ok (state.length, overlay.length)) :
    tree = p.tree ∧ state = p.state ∧ overlay = p.overlay := by
  subst hraw
  unfold Parts.raw at hbytes
  simp only [List.append_assoc] at hbytes
  obtain ⟨hword, hrest⟩ := List.append_inj hbytes (by rw [u32, u32, length_leBytes, length_leBytes])
  have hlength : metadata.length = p.metadata.length := by
    have hshort := h.prefixed
    have hnumber := congrArg leNat hword
    rwa [u32, u32, leNat_leBytes 4 _ (by omega), leNat_leBytes 4 _ (by omega)] at hnumber
  obtain ⟨rfl, hdata⟩ := List.append_inj hrest hlength
  have htree : tree = p.tree := Except.ok.inj (hmetadata.symm.trans h.metadata)
  subst htree
  have hsizes := hsections.symm.trans h.sections
  obtain ⟨hstate, -⟩ := Prod.mk.inj (Except.ok.inj hsizes)
  obtain ⟨hfirst, hsecond⟩ := List.append_inj hdata hstate
  exact ⟨rfl, hfirst, hsecond⟩

theorem headOk_written {header : Bytes} (h : 1 ≤ header.length ∧ header.length ≤ 4096) :
    HeadOk (MAGIC ++ u32 header.length) header := by
  have hword : slice (MAGIC ++ u32 header.length) 8 4 = u32 header.length := by
    rw [slice, List.drop_left' (by rfl), List.take_of_length_le (by rw [u32, length_leBytes])]
  refine ⟨?_, List.take_left' (by rfl), ?_, h⟩
  · rw [List.length_append, u32, length_leBytes]
    rfl
  · rw [hword, number, u32, leNat_leBytes 4 _ (by omega)]

/-- **A genuine file has only one reading.** -/
theorem Genuine.reading (h : Genuine setup p) {l : Layout} {d : Decoded} (ha : Authentic setup p.file l d) :
    d = p.decoded setup := by
  obtain ⟨-, hheader, hsealed⟩ := h.same_header (headOk_written ha.short) ha.bytes.symm
  have hsizes : l.sizes = p.sizes := by
    have hparsed := ha.header
    rw [hheader, h.header] at hparsed
    exact (Except.ok.inj hparsed).symm
  have hopened := ha.opened
  have hcount := ha.count
  rw [hheader, hsizes] at hopened
  rw [hsizes] at hcount
  have hplains := h.all_records hcount hopened (hsealed ▸ List.prefix_refl _)
  have hinflated := ha.inflated
  rw [hplains] at hinflated
  have hraw := h.inverts.ends _ hinflated
  have hsections := ha.sections
  rw [hsizes] at hsections
  obtain ⟨htree, hstate, hoverlay⟩ := h.same_sections hraw rfl ha.prefixed ha.metadata hsections
  obtain ⟨tree, state, overlay, digest⟩ := d
  obtain rfl : tree = p.tree := htree
  obtain rfl : state = p.state := hstate
  obtain rfl : overlay = p.overlay := hoverlay
  obtain rfl : digest = hex (setup.sha256 p.file) := ha.digest
  rfl

end Lengths

end My98.Web.StateFormat
