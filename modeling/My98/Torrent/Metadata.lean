/-
  My98.Torrent.Metadata — torrent files as the seedbox reads them
  (`src/torrent/my98_torrent/metadata.py`: `inspect`).

  A component travels as a single-file v1 torrent.  `inspect` decodes it with libtorrent, encodes
  it again, and takes it only when that gives the SAME bytes.

  Parameters: `lt.bdecode`, with what its documentation says of it (`LibTorrent.Lawful`), and
  SHA-1.  `inspect_sound` and `inspect_complete` say which files are taken: those whose
  dictionary `info` is `infoValue` of a size, a component and its piece hashes.
-/
import Mathlib.Algebra.Order.Ring.Nat
import Mathlib.Tactic.Common
import My98.Lib.Bencode
import My98.Torrent.Records

namespace My98.Torrent

open My98.Lib

/-! ## §1. Components. -/

inductive Component where
  | disk
  | state
  | profile
  | descriptor
  deriving DecidableEq, Repr

/-- `PIECE`. -/
def pieceLength : Nat := 256 * 1024

namespace Component

/-- `NAMES`. -/
def fileName : Component → String
  | disk => "disk.my98"
  | state => "state.my98state"
  | profile => "profile.json"
  | descriptor => "publication.json"

/-- `LIMITS`. -/
def limit : Component → Nat
  | disk => 2 ^ 40 + 2 ^ 30 + 198
  | state => 2 ^ 30 + 65536
  | profile => 65536
  | descriptor => 4096

def all : List Component := [disk, state, profile, descriptor]

end Component

/-- The largest torrent file of a component. -/
def metadataLimit (kind : Option Component) : Nat :=
  if kind = some .descriptor then 16384 else 96 * 1024 * 1024

/-- `(size + PIECE - 1) // PIECE`. -/
def pieceCount (size : Nat) : Nat := (size + pieceLength - 1) / pieceLength

/-- What both languages report of a torrent. -/
structure Report where
  infoHash : String
  kind : Component
  filename : String
  size : Nat
  pieces : Nat
  deriving DecidableEq, Repr

/-! ## §2. `inspect`. -/

/-- `lt.bdecode`; `none` when it raises. -/
structure LibTorrent where
  bdecode : Bytes → Option Ben

/-- A value far below libtorrent's limits: its integers have 64 bits. -/
structure Small (v : Ben) : Prop where
  nodes : v.nodes ≤ 256
  height : v.height ≤ 8
  ints : v.Ints fun n => -(2 ^ 63) ≤ n ∧ n < 2 ^ 63

/-- What libtorrent promises: a dictionary has each key once, and decoding undoes encoding. -/
structure LibTorrent.Lawful (lt : LibTorrent) : Prop where
  canonical : ∀ data v, lt.bdecode data = some v → v.Canonical
  decodes : ∀ v, v.Canonical → Small v → lt.bdecode v.encode = some v

def infoKeys : List Bytes := [ascii "length", ascii "name", ascii "piece length", ascii "pieces"]

/-- `set(info) == {…}`. -/
def keySet (info : Ben) : Bool :=
  info.keys.all (fun k => decide (k ∈ infoKeys)) && infoKeys.all fun k => decide (k ∈ info.keys)

/-- The integer under a key, and the bytes under a key. -/
def intField (info : Ben) (key : String) : Option Int :=
  match info.get? (ascii key) with
  | some (.int n) => some n
  | _ => none

def bytesField (info : Ben) (key : String) : Option Bytes :=
  match info.get? (ascii key) with
  | some (.str b) => some b
  | _ => none

/-- The component whose file has this name. -/
def componentOf (name : Bytes) : Option Component :=
  Component.all.find? fun k => ascii k.fileName = name

/-- The comparison with the expected infohash. -/
def inspectHash (infoHash : String) : Option String → Except String Unit
  | none => .ok ()
  | some text =>
    if (unhex text 20).isNone then .error "Infohash must be 40 lowercase hexadecimal digits"
    else if text ≠ infoHash then .error "Torrent infohash does not match signed publication"
    else .ok ()

/-- The checks of the dictionary `info`. -/
def inspectInfo (sha1 : Bytes → Bytes) (info : Ben) (expected : Option String)
    (kind : Option Component) : Except String Report :=
  if !keySet info then .error "Only flat v1 torrents are accepted"
  else
    match (bytesField info "name").bind componentOf, intField info "length" with
    | none, _ => .error "Invalid torrent filename"
    | some actual, size =>
      if kind.any (fun k => decide (k ≠ actual)) then .error "Wrong torrent component"
      else
        match size with
        | none => .error "Invalid torrent file size"
        | some size =>
          if size < 1 ∨ actual.limit < size then .error "Invalid torrent file size"
          else if intField info "piece length" ≠ some (pieceLength : Int) then
            .error "Invalid torrent piece length"
          else if (bytesField info "pieces").map List.length ≠
              some (20 * pieceCount size.toNat) then .error "Invalid torrent piece hashes"
          else do
            inspectHash (hex (sha1 info.encode)) expected
            return ⟨hex (sha1 info.encode), actual, actual.fileName, size.toNat,
              pieceCount size.toNat⟩

/-- The part of `inspect` inside its `try`. -/
def inspectValue (lt : LibTorrent) (sha1 : Bytes → Bytes) (data : Bytes) (expected : Option String)
    (kind : Option Component) : Except String Report :=
  match lt.bdecode data with
  | none => .error "invalid bencoding"
  | some value =>
    match decide (value.encode = data), value.get? (ascii "info") with
    | true, some (.dict entries) => inspectInfo sha1 (.dict entries) expected kind
    | _, _ => .error "Noncanonical torrent"

def inspect (lt : LibTorrent) (sha1 : Bytes → Bytes) (data : Bytes) (expected : Option String)
    (kind : Option Component) : Except Failure Report :=
  if 1 ≤ data.length ∧ data.length ≤ metadataLimit kind then
    (inspectValue lt sha1 data expected kind).mapError fun text =>
      .publication ("Invalid torrent metadata: " ++ text)
  else .error (.publication "Invalid torrent metadata size")

/-! ## §3. Which files are taken. -/

/-- The dictionary of a component: its fields in canonical order. -/
def infoEntries (size : Nat) (k : Component) (pieces : Bytes) : List (Bytes × Ben) :=
  [(ascii "length", .int size), (ascii "name", .str (ascii k.fileName)),
    (ascii "piece length", .int pieceLength), (ascii "pieces", .str pieces)]

def infoDict (size : Nat) (k : Component) (pieces : Bytes) : Ben := .dict (infoEntries size k pieces)

/-- What is asked of them. -/
structure Fits (kind : Option Component) (size : Nat) (k : Component) (pieces : Bytes) : Prop where
  low : 1 ≤ size
  high : size ≤ k.limit
  kind : kind.all (· = k) = true
  pieces : pieces.length = 20 * pieceCount size

/-- The keys of an info dictionary are sorted. -/
theorem infoKeys_sorted : infoKeys.Pairwise (· < ·) := by decide +kernel

section Fields

variable {v₁ v₂ v₃ v₄ : Ben}

/-- A dictionary with these keys, in order. -/
def fourEntries (v₁ v₂ v₃ v₄ : Ben) : List (Bytes × Ben) :=
  [(ascii "length", v₁), (ascii "name", v₂), (ascii "piece length", v₃), (ascii "pieces", v₄)]

/-- The first of the four entries. -/
theorem get_length : (Ben.dict (fourEntries v₁ v₂ v₃ v₄)).get? (ascii "length") = some v₁ := rfl

/-- The second. -/
theorem get_name : (Ben.dict (fourEntries v₁ v₂ v₃ v₄)).get? (ascii "name") = some v₂ := rfl

/-- The third. -/
theorem get_pieceLength :
    (Ben.dict (fourEntries v₁ v₂ v₃ v₄)).get? (ascii "piece length") = some v₃ := rfl

/-- The fourth. -/
theorem get_pieces : (Ben.dict (fourEntries v₁ v₂ v₃ v₄)).get? (ascii "pieces") = some v₄ := rfl

end Fields

/-- No string is before itself. -/
theorem bytes_lt_irrefl (a : Bytes) : ¬a < a := List.lt_irrefl a

/-- The order of strings is transitive. -/
theorem bytes_lt_trans (a b d : Bytes) (hab : a < b) (hbd : b < d) : a < d := List.lt_trans hab hbd

/-- The four keys can stand in one order only. -/
theorem four_of_keys {entries : List (Bytes × Ben)} (hcanon : (Ben.dict entries).Canonical)
    (hkeys : keySet (.dict entries) = true) : ∃ v₁ v₂ v₃ v₄, entries = fourEntries v₁ v₂ v₃ v₄ := by
  have hmap : entries.map (·.1) = infoKeys := by
    cases hcanon with
    | dict hsorted _ =>
      unfold keySet at hkeys
      simp only [Bool.and_eq_true, List.all_eq_true, decide_eq_true_eq] at hkeys
      exact eq_of_sorted bytes_lt_irrefl bytes_lt_trans (List.pairwise_map.mpr hsorted)
        infoKeys_sorted fun a => ⟨hkeys.1 a, hkeys.2 a⟩
  match entries, hmap with
  | [(k₁, v₁), (k₂, v₂), (k₃, v₃), (k₄, v₄)], hmap =>
    simp only [List.map_cons, List.map_nil, infoKeys, List.cons.injEq] at hmap
    obtain ⟨rfl, rfl, rfl, rfl, -⟩ := hmap
    exact ⟨v₁, v₂, v₃, v₄, rfl⟩

/-- A component is found by its file name. -/
theorem componentOf_some {name : Bytes} {k : Component} (h : componentOf name = some k) :
    name = ascii k.fileName := by
  have := List.find?_some h
  simpa [eq_comm] using this

/-- Every file name is found. -/
theorem componentOf_fileName (k : Component) : componentOf (ascii k.fileName) = some k := by
  cases k <;> decide +kernel

/-- The info hash is the one that is asked for, in hexadecimal. -/
theorem inspectHash_ok {infoHash text : String} :
    (∃ u, inspectHash infoHash (some text) = .ok u) ↔
      (unhex text 20).isSome = true ∧ text = infoHash := by
  unfold inspectHash
  dsimp only
  cases hhex : unhex text 20 with
  | none => simp
  | some b =>
    by_cases htext : text = infoHash
    · rw [if_neg (by simp), if_neg (not_not.mpr htext)]
      simp [htext]
    · rw [if_neg (by simp), if_pos htext]
      simp [htext]

/-- A field of bytes is an entry. -/
theorem bytesField_str {info : Ben} {key : String} {b : Bytes} (h : bytesField info key = some b) :
    info.get? (ascii key) = some (.str b) := by
  unfold bytesField at h
  split at h
  next hget => rw [hget, Option.some.inj h]
  · cases h

/-- So is a field with an integer. -/
theorem intField_int {info : Ben} {key : String} {n : Int} (h : intField info key = some n) :
    info.get? (ascii key) = some (.int n) := by
  unfold intField at h
  split at h
  next hget => rw [hget, Option.some.inj h]
  · cases h

/-- **The checks of `info`.** -/
theorem inspectInfo_ok {sha1 : Bytes → Bytes} {entries : List (Bytes × Ben)} {text : String}
    {kind : Option Component} {r : Report} (hcanon : (Ben.dict entries).Canonical) :
    inspectInfo sha1 (.dict entries) (some text) kind = .ok r ↔
      ∃ size k pieces, entries = infoEntries size k pieces ∧ Fits kind size k pieces ∧
        (unhex text 20).isSome = true ∧ text = hex (sha1 (infoDict size k pieces).encode) ∧
        r = ⟨text, k, k.fileName, size, pieceCount size⟩ := by
  constructor
  -- One check after another; what is left is the dictionary that the encoder writes.
  · intro h
    unfold inspectInfo at h
    split at h
    · cases h
    next hkeys =>
      obtain ⟨v₁, v₂, v₃, v₄, rfl⟩ := four_of_keys hcanon (by simpa using hkeys)
      split at h
      · cases h
      next _ actual hname =>
        obtain ⟨name, hfield, hactual⟩ := Option.bind_eq_some_iff.mp hname
        split at h
        · cases h
        next hkind =>
          split at h
          · cases h
          next size hsize =>
            split at h
            · cases h
            next hrange =>
              split at h
              · cases h
              next hpl =>
                split at h
                · cases h
                next hpieces =>
                  obtain ⟨u, hhash, h⟩ := ok_of_bind h
                  obtain ⟨hvalid, htext⟩ := inspectHash_ok.mp ⟨u, hhash⟩
                  obtain rfl := Except.ok.inj h
                  -- Each field is the value its check asked for.
                  have hv₁ := intField_int hsize
                  have hv₂ := bytesField_str hfield
                  have hv₃ := intField_int (not_not.mp hpl)
                  obtain ⟨pieces, hpf, hlen⟩ := Option.map_eq_some_iff.mp (not_not.mp hpieces)
                  have hv₄ := bytesField_str hpf
                  rw [get_length] at hv₁
                  rw [get_name] at hv₂
                  rw [get_pieceLength] at hv₃
                  rw [get_pieces] at hv₄
                  obtain rfl := Option.some.inj hv₁
                  obtain rfl := Option.some.inj hv₂
                  obtain rfl := Option.some.inj hv₃
                  obtain rfl := Option.some.inj hv₄
                  obtain rfl := componentOf_some hactual
                  have hnat : ((size.toNat : Nat) : Int) = size := by omega
                  have hentries : fourEntries (.int size) (.str (ascii actual.fileName))
                      (.int pieceLength) (.str pieces) = infoEntries size.toNat actual pieces := by
                    unfold infoEntries
                    rw [hnat]
                    rfl
                  rw [hentries] at htext ⊢
                  refine ⟨size.toNat, actual, pieces, rfl, ⟨by omega, by omega, ?_, hlen⟩, hvalid,
                    htext, ?_⟩
                  · cases kind with
                    | none => rfl
                    | some k => simpa using hkind
                  · rw [htext]
  · rintro ⟨size, k, pieces, rfl, hfits, hvalid, htext, rfl⟩
    -- Such a dictionary passes each of them.
    have hkind : kind.any (fun k' => decide (k' ≠ k)) = false := by
      have := hfits.kind
      cases kind with
      | none => rfl
      | some k' => simpa using this
    have hlow := hfits.low
    have hhigh := hfits.high
    have hpieces := hfits.pieces
    have hname : (bytesField (.dict (infoEntries size k pieces)) "name").bind componentOf = some k :=
      componentOf_fileName k
    have hkeys : keySet (.dict (infoEntries size k pieces)) = true := rfl
    have hsize : intField (.dict (infoEntries size k pieces)) "length" = some (size : Int) := rfl
    have hpl : intField (.dict (infoEntries size k pieces)) "piece length"
      = some (pieceLength : Int) := rfl
    have hpf : (bytesField (.dict (infoEntries size k pieces)) "pieces").map List.length
      = some (20 * pieceCount (size : Int).toNat) := congrArg some hpieces
    obtain ⟨u, hhash⟩ := inspectHash_ok.mpr ⟨hvalid, htext⟩
    unfold inspectInfo
    rw [hkeys, hname, hsize]
    dsimp only
    rw [if_neg (by decide), hkind, if_neg (by decide), if_neg (by omega), if_neg (not_not.mpr hpl),
      if_neg (not_not.mpr hpf)]
    show (inspectHash (hex (sha1 (infoDict size k pieces).encode)) (some text) >>= _) = _
    rw [hhash, htext]
    rfl

/-- A torrent file that starts with the key `info`. -/
def framed (raw : Bytes) : Bytes := ascii "d4:info" ++ raw ++ ascii "e"

/-- An info dictionary alone in a torrent. -/
theorem framed_eq (raw : Bytes) : framed raw = 100 :: (netstring (ascii "info") ++ raw) ++ [101] := by
  have hstart : ascii "d4:info" = 100 :: netstring (ascii "info") := by decide +kernel
  unfold framed
  rw [hstart]
  rfl

/-- The info dictionary is canonical. -/
theorem canonical_info (size : Nat) (k : Component) (pieces : Bytes) :
    (infoDict size k pieces).Canonical := by
  refine .dict (List.pairwise_map.mp infoKeys_sorted) ?_
  intro e he
  simp only [infoEntries, List.mem_cons, List.not_mem_nil, or_false] at he
  rcases he with rfl | rfl | rfl | rfl
  · exact .int _
  · exact .str _
  · exact .int _
  · exact .str _

/-- The file of a component, and nothing more. -/
theorem small_info {kind : Option Component} {size : Nat} {k : Component} {pieces : Bytes}
    (hfits : Fits kind size k pieces) : Small (.dict [(ascii "info", infoDict size k pieces)]) := by
  have hlimit : k.limit < 2 ^ 63 := by cases k <;> decide
  have hhigh := hfits.high
  refine ⟨?_, ?_, .dict fun e he => ?_⟩
  · simp [Ben.nodes, Ben.nodesEntries, infoDict, infoEntries]
  · simp [Ben.height, Ben.heightEntries, infoDict, infoEntries]
  · rw [List.mem_singleton] at he
    subst he
    refine .dict fun e he => ?_
    simp only [infoEntries, List.mem_cons, List.not_mem_nil, or_false] at he
    rcases he with rfl | rfl | rfl | rfl
    · exact .int ⟨by omega, by omega⟩
    · exact .str _
    · exact .int ⟨by decide, by decide⟩
    · exact .str _

/-- A canonical file that starts with the key `info` starts with its value. -/
theorem encode_framed {value : Ben} {raw : Bytes} (h : value.encode = framed raw) :
    (∃ entries, value = .dict entries) → ∃ v rest,
      value = .dict ((ascii "info", v) :: rest) ∧ raw = v.encode ++ Ben.encodeEntries rest := by
  rintro ⟨entries, rfl⟩
  rw [framed_eq, Ben.encode] at h
  have h := List.append_cancel_right (List.cons.inj h).2
  cases entries with
  | nil =>
    have hlen := congrArg List.length h
    simp [Ben.encodeEntries, netstring] at hlen
  | cons entry rest =>
    obtain ⟨key, v⟩ := entry
    rw [Ben.encodeEntries, List.append_assoc] at h
    obtain ⟨rfl, hraw⟩ := netstring_append_inj h
    exact ⟨v, rest, rfl, hraw.symm⟩

/-- **What `inspect` accepts**, by its checks. -/
theorem inspectValue_ok {lt : LibTorrent} {sha1 : Bytes → Bytes} {data : Bytes} {text : String}
    {kind : Option Component} {r : Report}
    (h : inspectValue lt sha1 data (some text) kind = .ok r) :
    ∃ value entries, lt.bdecode data = some value ∧ value.encode = data ∧
      value.get? (ascii "info") = some (.dict entries) ∧
      inspectInfo sha1 (.dict entries) (some text) kind = .ok r := by
  unfold inspectValue at h
  split at h
  · cases h
  next value hvalue =>
    split at h
    next entries hencode hinfo => exact ⟨value, entries, hvalue, of_decide_eq_true hencode, hinfo, h⟩
    · cases h

/-- A file that is taken starts with the canonical dictionary of a component, and is canonical
    itself. -/
theorem inspect_sound {lt : LibTorrent} (hlt : lt.Lawful) {sha1 : Bytes → Bytes} {raw : Bytes}
    {text : String} {kind : Option Component} {r : Report}
    (h : inspect lt sha1 (framed raw) (some text) kind = .ok r) :
    ∃ size k pieces rest, raw = (infoDict size k pieces).encode ++ Ben.encodeEntries rest ∧
      (Ben.dict ((ascii "info", infoDict size k pieces) :: rest)).Canonical ∧
      Fits kind size k pieces ∧ (unhex text 20).isSome = true ∧
      text = hex (sha1 (infoDict size k pieces).encode) ∧
      (framed raw).length ≤ metadataLimit kind ∧
      r = ⟨text, k, k.fileName, size, pieceCount size⟩ := by
  unfold inspect at h
  split at h
  next hsize =>
    obtain ⟨value, entries, hvalue, hencode, hinfo, h⟩ := inspectValue_ok (Disk.mapError_eq_ok h)
    have hdict : ∃ es, value = .dict es := by
      cases value with
      | dict es => exact ⟨es, rfl⟩
      | _ => cases hinfo
    obtain ⟨v, rest, rfl, hraw⟩ := encode_framed hencode hdict
    have hget : (Ben.dict ((ascii "info", v) :: rest)).get? (ascii "info") = some v := by
      simp [Ben.get?]
    rw [hget] at hinfo
    obtain rfl := Option.some.inj hinfo
    have hfile := hlt.canonical _ _ hvalue
    have hcanon : (Ben.dict entries).Canonical := by
      cases hfile with
      | dict _ hall => exact hall _ List.mem_cons_self
    obtain ⟨size, k, pieces, rfl, hfits, hvalid, htext, hr⟩ := (inspectInfo_ok hcanon).mp h
    exact ⟨size, k, pieces, rest, hraw, hfile, hfits, hvalid, htext, hsize.2, hr⟩
  · cases h

/-- The file of a component is taken, with whatever canonical entries behind `info`. -/
theorem inspect_entries {lt : LibTorrent} (hlt : lt.Lawful) {sha1 : Bytes → Bytes} {size : Nat}
    {k : Component} {pieces : Bytes} {rest : List (Bytes × Ben)} {text : String}
    {kind : Option Component}
    (hcanon : (Ben.dict ((ascii "info", infoDict size k pieces) :: rest)).Canonical)
    (hsmall : Small (.dict ((ascii "info", infoDict size k pieces) :: rest)))
    (hfits : Fits kind size k pieces) (hvalid : (unhex text 20).isSome = true)
    (htext : text = hex (sha1 (infoDict size k pieces).encode))
    (hsize : (framed ((infoDict size k pieces).encode ++ Ben.encodeEntries rest)).length ≤
      metadataLimit kind) :
    inspect lt sha1 (framed ((infoDict size k pieces).encode ++ Ben.encodeEntries rest)) (some text)
      kind = .ok ⟨text, k, k.fileName, size, pieceCount size⟩ := by
  have hencode : (Ben.dict ((ascii "info", infoDict size k pieces) :: rest)).encode
      = framed ((infoDict size k pieces).encode ++ Ben.encodeEntries rest) := by
    rw [framed_eq]
    simp [Ben.encode, Ben.encodeEntries]
  have hdecode := hlt.decodes _ hcanon hsmall
  have hinfo : inspectInfo sha1 (infoDict size k pieces) (some text) kind =
      .ok ⟨text, k, k.fileName, size, pieceCount size⟩ :=
    (inspectInfo_ok (canonical_info size k pieces)).mpr
      ⟨size, k, pieces, rfl, hfits, hvalid, htext, rfl⟩
  have hpos : 1 ≤ (framed ((infoDict size k pieces).encode ++ Ben.encodeEntries rest)).length := by
    rw [framed_eq]
    simp
  have hvalue : inspectValue lt sha1 (framed ((infoDict size k pieces).encode ++
      Ben.encodeEntries rest)) (some text) kind =
        .ok ⟨text, k, k.fileName, size, pieceCount size⟩ := by
    have hget : (Ben.dict ((ascii "info", infoDict size k pieces) :: rest)).get? (ascii "info")
        = some (infoDict size k pieces) := by
      simp [Ben.get?]
    unfold inspectValue
    rw [← hencode, hdecode]
    dsimp only
    rw [hget, decide_eq_true rfl]
    exact hinfo
  unfold inspect
  rw [if_pos ⟨hpos, hsize⟩, hvalue]
  rfl

/-- So is a torrent that has nothing else. -/
theorem canonical_alone (size : Nat) (k : Component) (pieces : Bytes) :
    (Ben.dict [(ascii "info", infoDict size k pieces)]).Canonical := by
  refine .dict (List.pairwise_singleton _ _) fun e he => ?_
  rw [List.mem_singleton] at he
  subst he
  exact canonical_info size k pieces

/-- The file of a component is taken. -/
theorem inspect_complete {lt : LibTorrent} (hlt : lt.Lawful) {sha1 : Bytes → Bytes} {size : Nat}
    {k : Component} {pieces : Bytes} {text : String} {kind : Option Component}
    (hfits : Fits kind size k pieces) (hvalid : (unhex text 20).isSome = true)
    (htext : text = hex (sha1 (infoDict size k pieces).encode))
    (hsize : (framed (infoDict size k pieces).encode).length ≤ metadataLimit kind) :
    inspect lt sha1 (framed (infoDict size k pieces).encode) (some text) kind =
      .ok ⟨text, k, k.fileName, size, pieceCount size⟩ := by
  have hnone : (infoDict size k pieces).encode ++ Ben.encodeEntries [] =
      (infoDict size k pieces).encode := by
    rw [Ben.encodeEntries, List.append_nil]
  have hfile : inspect lt sha1 (framed ((infoDict size k pieces).encode ++ Ben.encodeEntries []))
      (some text) kind = _ :=
    inspect_entries hlt (canonical_alone size k pieces) (small_info hfits) hfits hvalid htext
      (by rw [hnone]; exact hsize)
  rwa [hnone] at hfile

/-! ## §4. A decoder. -/

open Classical in
/-- A decoder that reads the canonical spelling of every value and nothing else. -/
noncomputable def canonicalTorrent : LibTorrent where
  bdecode data := if h : ∃ v : Ben, v.Canonical ∧ data = v.encode then some h.choose else none

/-- The strict decoder accepts what is canonical. -/
theorem canonicalTorrent_eq {data : Bytes} {v : Ben} :
    canonicalTorrent.bdecode data = some v ↔ v.Canonical ∧ data = v.encode := by
  unfold canonicalTorrent
  dsimp only
  constructor
  · intro h
    split at h
    next hread =>
      obtain rfl := Option.some.inj h
      exact hread.choose_spec
    · cases h
  · intro hv
    have hread : ∃ v : Ben, v.Canonical ∧ data = v.encode := ⟨v, hv⟩
    rw [dif_pos hread]
    exact congrArg some (Ben.encode_injective (hread.choose_spec.2.symm.trans hv.2))

/-- It has the laws that are asked of the library. -/
theorem canonicalTorrent_lawful : canonicalTorrent.Lawful where
  canonical := fun _ _ h => (canonicalTorrent_eq.mp h).1
  decodes := fun _ hcanon _ => canonicalTorrent_eq.mpr ⟨hcanon, rfl⟩

end My98.Torrent
