/-
  My98.Web.SameTorrents — the browser and the seedbox take the same torrents
  (`verifyMetadata` and `inspect`).

    • `same_torrents`       — where no mark stands, they agree: on the report always, and on
      acceptance within the limits of both parsers;
    • `different_torrents`  — a file with one key more, one with an integer that JavaScript does
      not hold, and one with a mark.
-/
import Mathlib.Algebra.Order.Ring.Nat
import Mathlib.Tactic.Common
import My98.Web.TorrentEntries

namespace My98.Web.Metadata

open My98.Lib My98.Torrent

/-! ## §1. The browser and the seedbox. -/

/-- No byte order mark stands in the dictionary of a component. -/
def Unmarked (raw : Bytes) : Prop :=
  ∀ m size k pieces rest, raw = spelled m size k pieces ++ rest → m = .none

/-- Nothing follows the dictionary of a component. -/
def Alone (raw : Bytes) : Prop :=
  ∀ size k pieces rest, raw = (infoDict size k pieces).encode ++ rest → rest = []

/-- `raw` starts with the canonical dictionary of a component. -/
def Starts (raw : Bytes) : Prop :=
  ∃ size k pieces rest, raw = (infoDict size k pieces).encode ++ rest

/-- `raw` is the canonical dictionary of a component. -/
def Exact (raw : Bytes) : Prop := ∃ size k pieces, raw = (infoDict size k pieces).encode

theorem verify_unmarked {sha1 : Bytes → Bytes} {raw : Bytes} {text : String}
    {kind : Option Component} {r : Report} (hmarks : Unmarked raw)
    (h : verifyMetadata sha1 (framed raw) text kind = .ok r) :
    ∃ size k pieces rest, raw = (infoDict size k pieces).encode ++ rest ∧
      Fits kind size k pieces ∧ (unhex text 20).isSome = true ∧
      text = hex (sha1 (infoDict size k pieces).encode) ∧
      (framed raw).length ≤ metadataLimit kind ∧
      r = ⟨text, k, k.fileName, size, pieceCount size⟩ ∧ Follows rest := by
  obtain ⟨m, size, k, pieces, rest, hraw, hfits, hvalid, htext, hlen, hr⟩ := verify_sound h
  obtain rfl := hmarks m size k pieces rest hraw
  rw [spelled_none] at hraw htext
  exact ⟨size, k, pieces, rest, hraw, hfits, hvalid, htext, hlen, hr⟩

/-- The entries behind `info`, where the file is plain: in the order of their texts. -/
theorem texts_of_canonical {entries : List (Bytes × Ben)} {v : Ben}
    (hplain : Plain (.dict ((ascii "info", v) :: entries)))
    (hcanon : (Ben.dict ((ascii "info", v) :: entries)).Canonical) :
    (∀ e ∈ entries, ∀ t, TextOf e.1 t → textLt "info" t = true) ∧
      entries.Pairwise fun a b => ∀ s t, TextOf a.1 s → TextOf b.1 t → textLt s t = true := by
  cases hplain with
  | dict _ horder _ =>
    cases hcanon with
    | dict hsorted _ =>
      obtain ⟨hfirst, hsorted⟩ := List.pairwise_cons.mp hsorted
      refine ⟨fun e he t ht => ?_, hsorted.imp_of_mem fun {a b} ha hb hlt s t hs ht => ?_⟩
      · exact (horder _ List.mem_cons_self e (List.mem_cons_of_mem _ he) "info" t info_text ht).mp
          (hfirst e he)
      · exact (horder a (List.mem_cons_of_mem _ ha) b (List.mem_cons_of_mem _ hb) s t hs ht).mp hlt

/-- A plain file whose entries behind `info` the browser has read is canonical. -/
theorem canonical_of_follows {size : Nat} {k : Component} {pieces : Bytes}
    {entries : List (Bytes × Ben)}
    (hplain : Plain (.dict ((ascii "info", infoDict size k pieces) :: entries)))
    (h : Follows (Ben.encodeEntries entries)) :
    (Ben.dict ((ascii "info", infoDict size k pieces) :: entries)).Canonical := by
  obtain ⟨fuel, c, c', es, hloop, hc, -⟩ := h
  cases hplain with
  | dict htext horder hvalues =>
    have htexts := (List.forall_mem_cons.mp htext).2
    obtain ⟨hcanon, -, hlater, hsorted⟩ := canonical_of_parseDict entries fuel 0 (some "info") c c' es []
      htexts (List.forall_mem_cons.mp hvalues).2 hloop hc
    refine .dict (List.pairwise_cons.mpr ⟨fun e he => ?_, hsorted.imp_of_mem fun {a b} ha hb hlt => ?_⟩)
      (List.forall_mem_cons.mpr ⟨canonical_info size k pieces, hcanon⟩)
    · obtain ⟨t, ht⟩ := htexts e he
      exact (horder _ List.mem_cons_self e (List.mem_cons_of_mem _ he) "info" t info_text ht).mpr
        (hlater "info" rfl e he t ht)
    · obtain ⟨s, hs⟩ := htexts a ha
      obtain ⟨t, ht⟩ := htexts b hb
      exact (horder a (List.mem_cons_of_mem _ ha) b (List.mem_cons_of_mem _ hb) s t hs ht).mpr
        (hlt s t hs ht)

/-- The canonical file of a component is taken by the browser, with whatever plain entries behind
    `info`. -/
theorem verify_entries {sha1 : Bytes → Bytes} {size : Nat} {k : Component} {pieces : Bytes}
    {entries : List (Bytes × Ben)} {text : String} {kind : Option Component}
    (hordinary : Ordinary (.dict ((ascii "info", infoDict size k pieces) :: entries)))
    (hcanon : (Ben.dict ((ascii "info", infoDict size k pieces) :: entries)).Canonical)
    (hfits : Fits kind size k pieces) (hvalid : (unhex text 20).isSome = true)
    (htext : text = hex (sha1 (infoDict size k pieces).encode))
    (hlen : (framed ((infoDict size k pieces).encode ++ Ben.encodeEntries entries)).length ≤
      metadataLimit kind) :
    verifyMetadata sha1 (framed ((infoDict size k pieces).encode ++ Ben.encodeEntries entries)) text
      kind = .ok ⟨text, k, k.fileName, size, pieceCount size⟩ := by
  obtain ⟨hnodes, hheight, hplain⟩ := hordinary
  obtain ⟨hlater, hsorted⟩ := texts_of_canonical hplain hcanon
  have hinfo : (infoDict size k pieces).nodes = 9 := by
    simp [Ben.nodes, Ben.nodesEntries, infoDict, infoEntries]
  have hlimit : metadataLimit kind ≤ 96 * 1024 * 1024 := by
    unfold metadataLimit
    split <;> decide
  have hshort : (Ben.encodeEntries entries).length < 10 ^ 14 := by
    simp only [framed, List.length_append] at hlen
    omega
  simp only [Ben.nodes, Ben.nodesEntries, Ben.height, Ben.heightEntries] at hnodes hheight
  cases hplain with
  | dict htexts _ hvalues =>
    cases hcanon with
    | dict _ hcanon =>
      obtain ⟨out, hloop⟩ := parseDict_encode entries 512 0 11 (some "info") []
        (List.forall_mem_cons.mp htexts).2 hsorted
        (fun p hp => by rw [Option.mem_def, Option.some.injEq] at hp; subst hp; exact hlater)
        (List.forall_mem_cons.mp hvalues).2 (List.forall_mem_cons.mp hcanon).2
        (by omega) (by omega) (by omega) hshort
      rw [← spelled_none] at htext hlen ⊢
      exact verify_complete hfits hvalid htext hlen hloop

/-- **The same torrents.**  Without marks, whatever one of the two takes starts with the canonical
    dictionary of a component, what both take they report alike, and what stands behind that
    dictionary is bencoded (for the browser, where it holds no mark).  Within the limits of both
    parsers each takes what the other takes, whatever keys stand behind `info`; and where none
    does, each takes what the other takes, and `raw` is that dictionary. -/
theorem same_torrents {lt : LibTorrent} (hlt : lt.Lawful) (sha1 : Bytes → Bytes) (raw : Bytes)
    (text : String) (kind : Option Component) (hmarks : Unmarked raw) :
    (∀ r, verifyMetadata sha1 (framed raw) text kind = .ok r → Starts raw) ∧
    (∀ r, inspect lt sha1 (framed raw) (some text) kind = .ok r → Starts raw) ∧
    (∀ r r', verifyMetadata sha1 (framed raw) text kind = .ok r →
      inspect lt sha1 (framed raw) (some text) kind = .ok r' → r = r') ∧
    (∀ size k pieces rest, raw = (infoDict size k pieces).encode ++ rest →
      (∀ r, inspect lt sha1 (framed raw) (some text) kind = .ok r →
        ∃ entries, rest = Ben.encodeEntries entries) ∧
      (MarkFree rest → ∀ r, verifyMetadata sha1 (framed raw) text kind = .ok r →
        ∃ entries, rest = Ben.encodeEntries entries)) ∧
    (∀ size k pieces entries, raw = (infoDict size k pieces).encode ++ Ben.encodeEntries entries →
      Ordinary (.dict ((ascii "info", infoDict size k pieces) :: entries)) → ∀ r,
        (verifyMetadata sha1 (framed raw) text kind = .ok r ↔
          inspect lt sha1 (framed raw) (some text) kind = .ok r)) ∧
    (Alone raw → ∀ r,
      (verifyMetadata sha1 (framed raw) text kind = .ok r ↔
        inspect lt sha1 (framed raw) (some text) kind = .ok r) ∧
      (verifyMetadata sha1 (framed raw) text kind = .ok r → Exact raw)) := by
  refine ⟨?_, ?_, ?_, ?_, ?_, ?_⟩
  · intro r h
    obtain ⟨size, k, pieces, rest, hraw, -⟩ := verify_unmarked hmarks h
    exact ⟨size, k, pieces, rest, hraw⟩
  · intro r h
    obtain ⟨size, k, pieces, rest, hraw, -⟩ := inspect_sound hlt h
    exact ⟨size, k, pieces, _, hraw⟩
  · intro r r' h h'
    obtain ⟨size, k, pieces, rest, hraw, -, -, -, -, rfl, -⟩ := verify_unmarked hmarks h
    obtain ⟨size', k', pieces', rest', hraw', -, -, -, -, -, rfl⟩ := inspect_sound hlt h'
    -- An info dictionary is told by the bytes that start with it.
    obtain ⟨rfl, rfl, -, -⟩ := infoDict_append_inj (hraw.symm.trans hraw')
    rfl
  · intro size k pieces rest hraw
    refine ⟨fun r h => ?_, fun hfree r h => ?_⟩
    · obtain ⟨size', k', pieces', entries, hraw', -⟩ := inspect_sound hlt h
      exact ⟨entries, (infoDict_append_inj (hraw.symm.trans hraw')).2.2.2⟩
    · obtain ⟨size', k', pieces', rest', hraw', -, -, -, -, -, hfollows⟩ := verify_unmarked hmarks h
      obtain ⟨-, -, -, rfl⟩ := infoDict_append_inj (hraw.symm.trans hraw')
      exact hfollows.entries hfree
  · intro size k pieces entries hraw hordinary r
    constructor
    · intro h
      obtain ⟨size', k', pieces', rest, hraw', hfits, hvalid, htext, hlen, rfl, hfollows⟩ :=
        verify_unmarked hmarks h
      obtain ⟨rfl, rfl, rfl, rfl⟩ := infoDict_append_inj (hraw.symm.trans hraw')
      rw [hraw] at hlen ⊢
      -- What the browser has read is canonical where the entries are ordinary.
      exact inspect_entries hlt (canonical_of_follows hordinary.plain hfollows) hordinary.small hfits
        hvalid htext hlen
    · intro h
      obtain ⟨size', k', pieces', rest, hraw', hcanon, hfits, hvalid, htext, hlen, rfl⟩ :=
        inspect_sound hlt h
      obtain ⟨rfl, rfl, rfl, hrest⟩ := infoDict_append_inj (hraw.symm.trans hraw')
      obtain rfl := Ben.encodeEntries_injective hrest
      rw [hraw] at hlen ⊢
      exact verify_entries hordinary hcanon hfits hvalid htext hlen
  · intro halone r
    refine ⟨⟨?_, ?_⟩, ?_⟩
    · intro h
      obtain ⟨size, k, pieces, rest, hraw, hfits, hvalid, htext, hlen, rfl, -⟩ :=
        verify_unmarked hmarks h
      obtain rfl := halone size k pieces rest hraw
      rw [List.append_nil] at hraw
      rw [hraw] at hlen ⊢
      exact inspect_complete hlt hfits hvalid htext hlen
    · intro h
      obtain ⟨size, k, pieces, rest, hraw, -, hfits, hvalid, htext, hlen, rfl⟩ := inspect_sound hlt h
      rw [halone size k pieces _ hraw, List.append_nil] at hraw
      rw [hraw] at hlen ⊢
      exact verify_canonical hfits hvalid htext hlen
    · intro h
      obtain ⟨size, k, pieces, rest, hraw, -⟩ := verify_unmarked hmarks h
      obtain rfl := halone size k pieces rest hraw
      exact ⟨size, k, pieces, by rw [hraw, List.append_nil]⟩

/-! ## §2. One component. -/

theorem marked_key_inj {m n : Bool} {b : Bytes} (h : marked m b = marked n b) : m = n := by
  have hlen := congrArg List.length h
  cases m with
  | true =>
    cases n with
    | true => rfl
    | false =>
      have : b.length + 3 = b.length := hlen
      omega
  | false =>
    cases n with
    | true =>
      have : b.length = b.length + 3 := hlen
      omega
    | false => rfl

theorem marked_name_inj {m n : Bool} {k j : Component}
    (h : marked m (ascii k.fileName) = marked n (ascii j.fileName)) : m = n ∧ k = j := by
  have hdecode : ∀ (mark : Bool) (k : Component),
      decodeText (marked mark (ascii k.fileName)) = some k.fileName := by
    intro mark k
    rw [ascii_eq_encodeText (fileName_ascii k)]
    exact decodeText_marked (take_ne_mark (fileName_ascii k)) mark
  have hname : k.fileName = j.fileName := by
    have htext := hdecode m k
    rw [h, hdecode] at htext
    exact (Option.some.inj htext).symm
  have hk := congrArg (fun name => componentOf (ascii name)) hname
  simp only [componentOf_fileName] at hk
  obtain rfl := Option.some.inj hk
  exact ⟨marked_key_inj h, rfl⟩

theorem intBytes_append_inj {m n : Bool} {a b : Nat} {r r' : Bytes}
    (h : intBytes m a ++ r = intBytes n b ++ r') : m = n ∧ a = b ∧ r = r' := by
  have hnot : ∀ (x : Nat) (s s' : Bytes), decimalText x ++ s ≠ byteOrderMark ++ s' := by
    intro x s s' heq
    exact absurd (decimalText_head heq) (by decide)
  simp only [intBytes, List.cons_append, List.append_assoc, List.nil_append, List.cons.injEq,
    true_and] at h
  cases m with
  | true =>
    cases n with
    | true =>
      have h : byteOrderMark ++ (decimalText a ++ 101 :: r) =
        byteOrderMark ++ (decimalText b ++ 101 :: r') := h
      obtain ⟨hn, -, hr⟩ :=
        decimal_append_inj (by decide) (by decide) (List.append_cancel_left h)
      exact ⟨rfl, hn, hr⟩
    | false =>
      have h : byteOrderMark ++ (decimalText a ++ 101 :: r) = decimalText b ++ 101 :: r' := h
      exact absurd h.symm (hnot _ _ _)
  | false =>
    cases n with
    | true =>
      have h : decimalText a ++ 101 :: r = byteOrderMark ++ (decimalText b ++ 101 :: r') := h
      exact absurd h (hnot _ _ _)
    | false =>
      obtain ⟨hn, -, hr⟩ := decimal_append_inj (by decide) (by decide) h
      exact ⟨rfl, hn, hr⟩

/-- A dictionary is spelled in one way. -/
theorem spelled_inj {m n : Marks} {size size' : Nat} {k j : Component} {pieces pieces' r r' : Bytes}
    (h : spelled m size k pieces ++ r = spelled n size' j pieces' ++ r') :
    m = n ∧ size = size' ∧ k = j ∧ pieces = pieces' ∧ r = r' := by
  simp only [spelled, List.cons_append, List.append_assoc, List.nil_append, List.cons.injEq,
    true_and] at h
  obtain ⟨h₁, h⟩ := netstring_append_inj h
  obtain ⟨h₂, hsize, h⟩ := intBytes_append_inj h
  obtain ⟨h₃, h⟩ := netstring_append_inj h
  obtain ⟨h₄, h⟩ := netstring_append_inj h
  obtain ⟨h₅, h⟩ := netstring_append_inj h
  obtain ⟨h₆, -, h⟩ := intBytes_append_inj h
  obtain ⟨h₇, h⟩ := netstring_append_inj h
  obtain ⟨hpieces, h⟩ := netstring_append_inj h
  obtain ⟨h₄, hk⟩ := marked_name_inj h₄
  refine ⟨?_, hsize, hk, hpieces, (List.cons.inj h).2⟩
  cases m
  cases n
  simp only [Marks.mk.injEq]
  exact ⟨marked_key_inj h₁, h₂, marked_key_inj h₃, h₄, marked_key_inj h₅, h₆, marked_key_inj h₇⟩

theorem unmarked_infoDict (size : Nat) (k : Component) (pieces rest : Bytes) :
    Unmarked ((infoDict size k pieces).encode ++ rest) := by
  intro m size' k' pieces' rest' h
  rw [← spelled_none] at h
  exact (spelled_inj h).1.symm

theorem alone_infoDict (size : Nat) (k : Component) (pieces : Bytes) :
    Alone (infoDict size k pieces).encode := by
  intro size' k' pieces' rest h
  rw [← List.append_nil (infoDict size k pieces).encode, ← spelled_none, ← spelled_none] at h
  exact (spelled_inj h).2.2.2.2.symm

/-- The profile `{}` and the SHA-1 of its two bytes. -/
def emptyProfile : Bytes :=
  [191, 33, 169, 232, 251, 197, 163, 132, 111, 176, 91, 79, 160, 133, 158, 9, 23, 178, 32, 47]

/-- The SHA-1 of its dictionary, and of its dictionary with a mark before the filename. -/
def profileDigest : Bytes :=
  [58, 23, 57, 99, 94, 22, 147, 60, 236, 231, 141, 51, 35, 67, 141, 251, 96, 136, 110, 133]

def markedDigest : Bytes :=
  [248, 173, 1, 192, 55, 92, 241, 18, 90, 184, 71, 225, 254, 178, 95, 215, 81, 122, 174, 19]

def nameMark : Marks := { Marks.none with name := true }

theorem fits_emptyProfile : Fits none 2 .profile emptyProfile := by
  refine ⟨?_, ?_, rfl, rfl⟩ <;> decide

def profileReport (digest : Bytes) : Report := ⟨hex digest, .profile, "profile.json", 2, 1⟩

/-- The dictionary of the empty profile, followed by the key `z` with an empty string. -/
def extraKey : Bytes :=
  (infoDict 2 .profile emptyProfile).encode ++ Ben.encodeEntries [(ascii "z", .str [])]

/-- A dictionary whose keys are one byte a character, in one order as bytes and as UTF-16. -/
theorem plain_ascii {entries : List (Bytes × Ben)} {names : List String}
    (hkeys : entries.map (·.1) = names.map ascii) (hnames : ∀ s ∈ names, Ascii7 s.toList)
    (horder : ∀ s ∈ names, ∀ t ∈ names, (ascii s < ascii t ↔ textLt s t = true))
    (h : ∀ e ∈ entries, Plain e.2) : Plain (.dict entries) := by
  have hname : ∀ e ∈ entries, ∃ s ∈ names, e.1 = ascii s := by
    intro e he
    have hmem : e.1 ∈ names.map ascii := hkeys ▸ List.mem_map_of_mem he
    obtain ⟨s, hs, heq⟩ := List.mem_map.mp hmem
    exact ⟨s, hs, heq.symm⟩
  have hunique : ∀ s ∈ names, ∀ t, TextOf (ascii s) t → t = s := fun s hs t ht =>
    Option.some.inj (ht.decode.symm.trans (text_ascii (hnames s hs)).decode)
  refine .dict (fun e he => ?_) (fun a ha b hb s t hs ht => ?_) h
  · obtain ⟨s, hs, heq⟩ := hname e he
    exact ⟨s, heq ▸ text_ascii (hnames s hs)⟩
  · obtain ⟨s', hs', ha'⟩ := hname a ha
    obtain ⟨t', ht', hb'⟩ := hname b hb
    rw [ha'] at hs ⊢
    rw [hb'] at ht ⊢
    rw [hunique s' hs' s hs, hunique t' ht' t ht]
    exact horder s' hs' t' ht'

/-- The file with one key more is within the limits of both parsers. -/
theorem extraKey_ordinary : Ordinary (.dict
    [(ascii "info", infoDict 2 .profile emptyProfile), (ascii "z", .str [])]) := by
  refine ⟨?_, ?_, ?_⟩
  · simp [Ben.nodes, Ben.nodesEntries, infoDict, infoEntries]
  · simp [Ben.height, Ben.heightEntries, infoDict, infoEntries]
  · have hinfo : Plain (infoDict 2 .profile emptyProfile) := by
      refine @plain_ascii _ sortedNames rfl ?_ (by decide +kernel) ?_
      · simp [sortedNames, Ascii7]
      · intro e he
        simp only [infoEntries, List.mem_cons, List.not_mem_nil, or_false] at he
        rcases he with rfl | rfl | rfl | rfl
        · exact .int (by decide)
        · exact .str _
        · exact .int (by decide)
        · exact .str _
    refine @plain_ascii _ ["info", "z"] rfl ?_ (by decide +kernel) ?_
    · simp [Ascii7]
    · intro e he
      simp only [List.mem_cons, List.not_mem_nil, or_false] at he
      rcases he with rfl | rfl
      · exact hinfo
      · exact .str _

theorem extraKey_taken : verifyMetadata (fun _ => profileDigest) (framed extraKey)
    (hex profileDigest) none = .ok (profileReport profileDigest) := by
  have hrest : parseDict 512 0 (some "info") ⟨ascii "1:z0:" ++ [101], 11⟩ =
      .ok ([("z", .bytes [], _)], ⟨[], 13⟩) :=
    parseDict_entry 510 0 11 (some "info") false "z" (by simp [Ascii7]) (marked_short (by decide))
      (by decide +kernel) (by decide) (by decide)
      (parse_netstring (b := []) (by decide) (by decide) (by decide) [101])
      (parseDict_end 510 0 (some "z") [] 13)
  unfold extraKey
  rw [← spelled_none]
  exact verify_complete fits_emptyProfile (digest_valid rfl) rfl (by decide +kernel) hrest

/-- The file of the empty profile is taken by both, and so is the file with one key more. -/
theorem same_torrents_profile :
    (verifyMetadata (fun _ => profileDigest) (framed (infoDict 2 .profile emptyProfile).encode)
        (hex profileDigest) none = .ok (profileReport profileDigest) ∧
      inspect canonicalTorrent (fun _ => profileDigest)
        (framed (infoDict 2 .profile emptyProfile).encode) (some (hex profileDigest)) none =
          .ok (profileReport profileDigest)) ∧
      verifyMetadata (fun _ => profileDigest) (framed extraKey) (hex profileDigest) none =
        .ok (profileReport profileDigest) ∧
      inspect canonicalTorrent (fun _ => profileDigest) (framed extraKey) (some (hex profileDigest))
        none = .ok (profileReport profileDigest) := by
  have hlen : (framed (infoDict 2 .profile emptyProfile).encode).length ≤ metadataLimit none := by
    decide +kernel
  have hverify : verifyMetadata (fun _ => profileDigest)
      (framed (infoDict 2 .profile emptyProfile).encode) (hex profileDigest) none = _ :=
    verify_canonical fits_emptyProfile (digest_valid rfl) rfl hlen
  have hmarks := unmarked_infoDict 2 .profile emptyProfile []
  rw [List.append_nil] at hmarks
  have halone := (same_torrents canonicalTorrent_lawful (fun _ => profileDigest) _ (hex profileDigest)
    none hmarks).2.2.2.2.2 (alone_infoDict 2 .profile emptyProfile) (profileReport profileDigest)
  have hmore := (same_torrents canonicalTorrent_lawful (fun _ => profileDigest) extraKey
    (hex profileDigest) none (unmarked_infoDict 2 .profile emptyProfile _)).2.2.2.2.1 2 .profile
      emptyProfile [(ascii "z", .str [])] rfl extraKey_ordinary (profileReport profileDigest)
  exact ⟨⟨hverify, halone.1.mp hverify⟩, extraKey_taken, hmore.mp extraKey_taken⟩

theorem extraKey_not_exact : ¬Exact extraKey := by
  rintro ⟨size, k, pieces, h⟩
  unfold extraKey at h
  rw [← List.append_nil (infoDict size k pieces).encode, ← spelled_none, ← spelled_none] at h
  have hrest := (spelled_inj h).2.2.2.2
  exact absurd hrest (by decide)

/-- The dictionary of the empty profile, followed by the key `z` with the integer 2 ^ 53. -/
def bigKey : Bytes :=
  (infoDict 2 .profile emptyProfile).encode ++ Ben.encodeEntries [(ascii "z", .int (2 ^ 53))]

theorem bigKey_taken {lt : LibTorrent} (hlt : lt.Lawful) :
    inspect lt (fun _ => profileDigest) (framed bigKey) (some (hex profileDigest)) none =
      .ok (profileReport profileDigest) := by
  have hsmall := small_info fits_emptyProfile
  refine inspect_entries hlt (.dict ?_ ?_) ⟨?_, ?_, .dict ?_⟩ fits_emptyProfile (digest_valid rfl) rfl
    (by decide +kernel)
  · refine List.pairwise_cons.mpr ⟨fun e he => ?_, List.pairwise_singleton _ _⟩
    rw [List.mem_singleton] at he
    subst he
    decide +kernel
  · intro e he
    simp only [List.mem_cons, List.not_mem_nil, or_false] at he
    rcases he with rfl | rfl
    · exact canonical_info 2 .profile emptyProfile
    · exact .int _
  · simp [Ben.nodes, Ben.nodesEntries, infoDict, infoEntries]
  · simp [Ben.height, Ben.heightEntries, infoDict, infoEntries]
  · intro e he
    simp only [List.mem_cons, List.not_mem_nil, or_false] at he
    rcases he with rfl | rfl
    · cases hsmall.ints with
      | dict hints => exact hints _ List.mem_cons_self
    · exact .int ⟨by decide, by decide⟩

/-- JavaScript has no place for that integer. -/
theorem bigKey_rejected (r : Report) :
    verifyMetadata (fun _ => profileDigest) (framed bigKey) (hex profileDigest) none ≠ .ok r := by
  intro h
  obtain ⟨size, k, pieces, rest, hraw, -, -, -, -, -, fuel, c, c', es, hloop, hc, hend⟩ :=
    verify_unmarked (unmarked_infoDict 2 .profile emptyProfile _) h
  obtain ⟨-, -, -, rfl⟩ := infoDict_append_inj hraw
  have hbytes : Ben.encodeEntries [(ascii "z", .int (2 ^ 53))] ++ [101] =
      netstring (ascii "z") ++ 105 :: ascii "9007199254740992ee" := by decide +kernel
  rw [hbytes] at hc
  cases es with
  | nil =>
    rw [parseDict_nil hloop] at hc
    exact absurd hc.symm (Ben.netstring_ne (by decide) _ _ _)
  | cons e es =>
    obtain ⟨name, val, bytes⟩ := e
    obtain ⟨_, c₂, -, hentry, -⟩ := parseDict_cons hloop
    obtain ⟨b, c₁, hkey, -, hvalue, -⟩ := hentry.entry
    dsimp only at hvalue
    rw [hc] at hkey
    have hrest := (netstring_append_inj hkey).2
    obtain ⟨_, -, hparsed⟩ := parse_ok hvalue
    have hnumber : ∀ out, number 101 true (ascii "9007199254740992ee") ≠ .ok out := by
      have herror : number 101 true (ascii "9007199254740992ee") = .error _ := rfl
      intro out hout
      rw [herror] at hout
      cases hout
    cases hparsed with
    | int hstart hn =>
      rw [hstart] at hrest
      rw [← (List.cons.inj hrest).2] at hn
      exact hnumber _ hn
    | bytes hstart hdigit _ =>
      rw [hstart] at hrest
      obtain rfl := (List.cons.inj hrest).1
      exact absurd hdigit (by decide)
    | dict hstart _ =>
      rw [hstart] at hrest
      exact absurd (List.cons.inj hrest).1 (by decide)
    | list hstart _ =>
      rw [hstart] at hrest
      exact absurd (List.cons.inj hrest).1 (by decide)

theorem marked_rejected {lt : LibTorrent} (hlt : lt.Lawful) (r : Report) :
    inspect lt (fun _ => markedDigest) (framed (spelled nameMark 2 .profile emptyProfile))
      (some (hex markedDigest)) none ≠ .ok r := by
  intro h
  obtain ⟨size, k, pieces, rest, hraw, -⟩ := inspect_sound hlt h
  rw [← List.append_nil (spelled nameMark 2 .profile emptyProfile), ← spelled_none] at hraw
  exact absurd (spelled_inj hraw).1 (by decide)

theorem marked_taken : verifyMetadata (fun _ => markedDigest)
    (framed (spelled nameMark 2 .profile emptyProfile)) (hex markedDigest) none =
      .ok (profileReport markedDigest) := by
  rw [← List.append_nil (spelled nameMark 2 .profile emptyProfile)]
  exact verify_complete fits_emptyProfile (digest_valid rfl) rfl (by decide +kernel)
    (parseDict_end 511 0 (some "info") [] 11)

/-- The browser takes a file whose `raw` holds one key more; it refuses one whose key holds an
    integer above its own, which every seedbox takes; and it takes one with a byte order mark before
    the filename, which no seedbox takes. -/
theorem different_torrents :
    (verifyMetadata (fun _ => profileDigest) (framed extraKey) (hex profileDigest) none =
        .ok (profileReport profileDigest) ∧ ¬Exact extraKey) ∧
      (∀ lt : LibTorrent, lt.Lawful →
        inspect lt (fun _ => profileDigest) (framed bigKey) (some (hex profileDigest)) none =
          .ok (profileReport profileDigest) ∧
        ∀ r, verifyMetadata (fun _ => profileDigest) (framed bigKey) (hex profileDigest) none ≠ .ok r) ∧
      (verifyMetadata (fun _ => markedDigest)
          (framed (spelled nameMark 2 .profile emptyProfile)) (hex markedDigest) none =
            .ok (profileReport markedDigest) ∧
        ∀ (lt : LibTorrent) (r : Report), lt.Lawful →
          inspect lt (fun _ => markedDigest) (framed (spelled nameMark 2 .profile emptyProfile))
            (some (hex markedDigest)) none ≠ .ok r) :=
  ⟨⟨extraKey_taken, extraKey_not_exact⟩, fun _ hlt => ⟨bigKey_taken hlt, bigKey_rejected⟩,
    marked_taken, fun _ r hlt => marked_rejected hlt r⟩

end My98.Web.Metadata
