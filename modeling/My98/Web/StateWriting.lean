/-
  My98.Web.StateWriting — what `encodeState` writes is genuine, and so it is read back.

    • `parseJson_encode`  — `JSON.parse` reads what `JSON.stringify` has written;
    • `headerOf_sizes`,
      `withLengths_sections` — with the numbers that were put in;
    • `encodeState_wrote` — the calls that a file is from;
    • `Wrote.genuine`     — the file;
    • `state_round_trip`  — **writing, then every run of the reader**.
-/
import Mathlib
import My98.Web.StateReading
import My98.Web.BootAnalysis

namespace My98.Web.StateFormat

open My98.Lib My98.Lib.JsonText My98.Torrent.DescriptorText My98.Torrent.Formats My98.Web.LoadProfiles

/-! ## §1. JSON. -/

/-- The fields of an object as `JSON.stringify` spells them: in characters that are not half of a pair. -/
structure Printed (fields : List (Units × Tree)) : Prop where
  spelled : FieldsSpelled fields
  drawn : FieldsDrawn Nat.isValidChar fields

/-- A text is told by its characters. -/
theorem points_valid {text : Units} (h : ∀ c ∈ text, Nat.isValidChar c) :
    points (String.ofList (text.map Char.ofNat)) = text := by
  have hchar : ∀ c ∈ text, (Char.ofNat c).toNat = c := by
    intro c hc
    rw [Char.ofNat, dif_pos (h c hc)]
    rfl
  rw [points, String.toList_ofList, List.map_map]
  exact (List.map_congr_left fun c hc => hchar c hc).trans (List.map_id text)

/-- ASCII is made of characters. -/
theorem isValidChar_ascii (c : Nat) (h : 0 < c ∧ c < 128) : Nat.isValidChar c := .inl (h.2.trans (by decide))

/-- An object starts with a brace, and so it does not look like a byte order mark. -/
theorem encodeJson_unmarked (fields : List (Units × Tree)) :
    (encodeJson (.obj fields)).take 3 ≠ byteOrderMark := by
  have hhead : ∃ text, print (.obj fields) = 123 :: text := by
    cases fields with
    | nil =>
      rw [print]
      exact ⟨_, rfl⟩
    | cons f fields =>
      obtain ⟨k, v⟩ := f
      rw [print]
      exact ⟨_, rfl⟩
  obtain ⟨text, htext⟩ := hhead
  rw [encodeJson, htext, encodeText, List.map_cons, String.toList_ofList, List.flatMap_cons]
  have hbrace : String.utf8EncodeChar (Char.ofNat 123) = [123] := by decide
  rw [hbrace]
  intro h
  have hfirst := congrArg List.head? h
  simp [byteOrderMark] at hfirst

/-- **What was written is read.** -/
theorem parseJson_encode {fields : List (Units × Tree)} (h : Printed fields) :
    parseJson (encodeJson (.obj fields)) = .ok (.obj fields) := by
  have hspelled : (Tree.obj fields).Spelled := h.spelled
  have hdrawn : (Tree.obj fields).Drawn Nat.isValidChar := h.drawn
  have hpoints := points_valid (print_drawn isValidChar_ascii hdrawn)
  have hdecode : decodeText (encodeJson (.obj fields)) =
      some (String.ofList ((print (.obj fields)).map Char.ofNat)) := by
    have hmarked := decodeText_marked (encodeJson_unmarked fields) false
    rwa [marked, if_neg (by decide)] at hmarked
  have hparse : parseBytes (encodeJson (.obj fields)) = some (.obj fields) := by
    rw [parseBytes, hdecode, Option.bind_some, hpoints]
    exact parse_print words_plain (fun e he => he) hspelled
  unfold parseJson
  rw [hdecode, hparse]

/-- A number is spelled as JSON spells it. -/
theorem natural_spelled (n : Nat) : (natural n).Spelled := numeral_isNumber n

/-- It is drawn in characters. -/
theorem natural_drawn (n : Nat) : (natural n).Drawn Nat.isValidChar :=
  fun c hc => isValidChar_ascii c (numeral_ascii n c hc)

/-- JavaScript reads it back. -/
theorem jsNumber_natural {n : Nat} (h : n < 2 ^ 53) : jsNumber (natural n) = some (n : ℚ) := by
  have hint : int? (natural n) = some (n : ℤ) := BootAnalysis.intValue_numeral n
  have hbound : |(n : ℤ)| < 2 ^ 53 := by
    rw [abs_of_nonneg (Int.natCast_nonneg n)]
    exact_mod_cast h
  have hnumber := jsNumber_of_int hint hbound
  exact_mod_cast hnumber

/-- It is a safe integer. -/
theorem safeInteger?_natural {n : Nat} (h : n < 2 ^ 53) : safeInteger? (jsNumber (natural n)) = some (n : ℤ) := by
  have hbound : |(n : ℤ)| < 2 ^ 53 := by
    rw [abs_of_nonneg (Int.natCast_nonneg n)]
    exact_mod_cast h
  have hsafe := isSafe_int hbound
  rw [jsNumber_natural h, safeInteger?, Option.bind_some]
  rw [show ((n : ℚ)) = (((n : ℤ)) : ℚ) by push_cast; rfl, if_pos hsafe, Int.floor_intCast]

/-! ## §2. The metadata. -/

section Fields

variable {fields : List (Units × Tree)} {name other : Units} {v : Tree}

/-- The last field of a name, spelled in any way. -/
def lastOf (fields : List (Units × Tree)) (name : Units) : Option Tree :=
  (fields.reverse.find? fun f => decide (utf16Value f.1 = name)).map (·.2)

/-- The field that was set has its value. -/
theorem setField_self (hname : utf16Value name = name) : lastOf (setField fields name v) name = some v := by
  unfold setField
  split
  next hthere =>
    obtain ⟨f, hf, hsame⟩ := List.any_eq_true.mp hthere
    have hsame := of_decide_eq_true hsame
    -- every field of this name has the new value, and there is one
    have hsome : ((fields.map fun f => if utf16Value f.1 = name then (f.1, v) else f).reverse.find?
        fun f => decide (utf16Value f.1 = name)).isSome = true := by
      rw [List.find?_isSome]
      refine ⟨(f.1, v), List.mem_reverse.mpr (List.mem_map.mpr ⟨f, hf, if_pos hsame⟩), ?_⟩
      exact decide_eq_true hsame
    obtain ⟨g, hg⟩ := Option.isSome_iff_exists.mp hsome
    have hfound := List.find?_some hg
    have hgname : utf16Value g.1 = name := of_decide_eq_true hfound
    have hmem := List.mem_reverse.mp (List.mem_of_find?_eq_some hg)
    obtain ⟨f', -, rfl⟩ := List.mem_map.mp hmem
    unfold lastOf
    rw [hg, Option.map_some]
    split
    · rfl
    next hnot =>
      rw [if_neg hnot] at hgname
      exact absurd hgname hnot
  · unfold lastOf
    rw [List.reverse_append, List.reverse_singleton, List.singleton_append, List.find?_cons_of_pos (by
      exact decide_eq_true hname), Option.map_some]

/-- The others have theirs. -/
theorem setField_other (hname : utf16Value name = name) (hne : name ≠ other) :
    lastOf (setField fields name v) other = lastOf fields other := by
  unfold setField lastOf
  split
  · rw [← List.map_reverse]
    induction fields.reverse with
    | nil => rfl
    | cons f rest ih =>
      rw [List.map_cons, List.find?_cons, List.find?_cons]
      by_cases hf : utf16Value f.1 = name
      · have hmiss : decide (utf16Value f.1 = other) = false := decide_eq_false (hf ▸ hne)
        simp only [if_pos hf, hmiss]
        exact ih
      · simp only [if_neg hf]
        split
        · rfl
        · exact ih
  · rw [List.reverse_append, List.reverse_singleton, List.singleton_append, List.find?_cons_of_neg]
    rw [decide_eq_true_eq, hname]
    exact hne

/-- An object that was printed is printed with it. -/
theorem setField_printed (h : Printed fields) (hname : Printed [(name, v)]) : Printed (setField fields name v) := by
  obtain ⟨⟨hk, hv, -⟩, ⟨hk', hv', -⟩⟩ := hname
  have happend : ∀ fs : List (Units × Tree), Printed fs → Printed (fs ++ [(name, v)]) := by
    intro fs
    induction fs with
    | nil => exact fun _ => ⟨⟨hk, hv, trivial⟩, ⟨hk', hv', trivial⟩⟩
    | cons f fs ih =>
      rintro ⟨⟨ha, hb, hc⟩, ⟨ha', hb', hc'⟩⟩
      have hrest := ih ⟨hc, hc'⟩
      exact ⟨⟨ha, hb, hrest.spelled⟩, ⟨ha', hb', hrest.drawn⟩⟩
  have hmap : ∀ fs : List (Units × Tree), Printed fs →
      Printed (fs.map fun f => if utf16Value f.1 = name then (f.1, v) else f) := by
    intro fs
    induction fs with
    | nil => exact fun h => h
    | cons f fs ih =>
      rintro ⟨⟨ha, hb, hc⟩, ⟨ha', hb', hc'⟩⟩
      have hrest := ih ⟨hc, hc'⟩
      rw [List.map_cons]
      split
      · exact ⟨⟨ha, hv, hrest.spelled⟩, ⟨ha', hv', hrest.drawn⟩⟩
      · exact ⟨⟨ha, hb, hrest.spelled⟩, ⟨ha', hb', hrest.drawn⟩⟩
  unfold setField
  split
  · exact hmap fields h
  · exact happend fields h

/-- A property of an object is its last field of that name. -/
theorem prop_lastOf {name : String} (h : Basic (units name)) :
    prop (.obj fields) name = lastOf fields (units name) := by
  have hsame : (fun f : Units × Tree => decide (jsString f.1 = units name)) =
      fun f => decide (utf16Value f.1 = units name) := by
    funext f
    refine decide_eq_decide.mpr ?_
    rw [jsString, flatMap_unitsOf h]
  unfold prop lastOf lookupField
  dsimp only
  rw [hsame]

end Fields

/-- The name has no escapes. -/
theorem units_stateLength : utf16Value (units "stateLength") = units "stateLength" := by decide +kernel

/-- Nor has this one. -/
theorem units_overlayLength : utf16Value (units "overlayLength") = units "overlayLength" := by decide +kernel

/-- A field with a number is printed. -/
theorem Printed.natural {name : Units} (hspelled : Chars name) (hdrawn : ∀ c ∈ name, Nat.isValidChar c) (n : Nat) :
    Printed [(name, natural n)] :=
  ⟨⟨hspelled, natural_spelled n, trivial⟩, ⟨hdrawn, natural_drawn n, trivial⟩⟩

/-- Plain characters are spelled as themselves. -/
theorem chars_of_plain {l : Units} (h : ∀ c ∈ l, 32 ≤ c ∧ c ≠ 34 ∧ c ≠ 92) : Chars l := by
  induction l with
  | nil => exact .nil
  | cons c l ih => exact .plain (h c List.mem_cons_self) (ih fun d hd => h d (List.mem_cons_of_mem _ hd))

/-- A name of small letters and capitals. -/
theorem printed_name {name : Units} (h : ∀ c ∈ name, 65 ≤ c ∧ c ≤ 122 ∧ c ≠ 92) (n : Nat) :
    Printed [(name, natural n)] := by
  refine .natural (chars_of_plain fun c hc => ?_) (fun c hc => isValidChar_ascii c ?_) n
  · have hletter := h c hc
    omega
  · have hletter := h c hc
    omega

section Metadata

variable {metadata : List (Units × Tree)} {stateLength overlayLength metaLength : Nat}

/-- Metadata with the two lengths are printed. -/
theorem withLengths_printed (h : Printed metadata) : Printed (withLengths metadata stateLength overlayLength) :=
  setField_printed (setField_printed h (printed_name (by decide) stateLength)) (printed_name (by decide) overlayLength)

/-- **The sizes of the sections**, as they are read out of the metadata. -/
theorem withLengths_sections (hstate : 1 ≤ stateLength ∧ stateLength < 2 ^ 53) (hoverlay : overlayLength < 2 ^ 53) :
    sectionsOf (.obj (withLengths metadata stateLength overlayLength)) metaLength
      (4 + metaLength + stateLength + overlayLength) = .ok (stateLength, overlayLength) := by
  have hfirst : safeProp (.obj (withLengths metadata stateLength overlayLength)) "stateLength" =
      some (stateLength : ℤ) := by
    have hprop : prop (.obj (withLengths metadata stateLength overlayLength)) "stateLength" =
        some (natural stateLength) := by
      rw [prop_lastOf (by decide), withLengths, setField_other units_overlayLength (by decide),
        setField_self units_stateLength]
    rw [safeProp, hprop, Option.bind_some, safeInteger?_natural hstate.2]
  have hsecond : safeProp (.obj (withLengths metadata stateLength overlayLength)) "overlayLength" =
      some (overlayLength : ℤ) := by
    have hprop : prop (.obj (withLengths metadata stateLength overlayLength)) "overlayLength" =
        some (natural overlayLength) := by
      rw [prop_lastOf (by decide), withLengths, setField_self units_overlayLength]
    rw [safeProp, hprop, Option.bind_some, safeInteger?_natural hoverlay]
  unfold sectionsOf
  rw [if_neg (show ¬isNull (.obj (withLengths metadata stateLength overlayLength)) = true from Bool.false_ne_true),
    hfirst, hsecond]
  dsimp only
  rw [if_neg]
  · rw [Int.toNat_natCast, Int.toNat_natCast]
  · push_cast
    omega

end Metadata

/-! ## §3. The header. -/

section Header

variable {base nonce : Bytes} {raw packed : Nat}

/-- So is an array of bytes. -/
theorem bytes_spelled (b : Bytes) : AllSpelled (b.map fun x => natural x.toNat) := by
  induction b with
  | nil => exact trivial
  | cons x b ih => exact ⟨natural_spelled x.toNat, ih⟩

/-- It is drawn in characters, too. -/
theorem bytes_drawn (b : Bytes) : AllDrawn Nat.isValidChar (b.map fun x => natural x.toNat) := by
  induction b with
  | nil => exact trivial
  | cons x b ih => exact ⟨natural_drawn x.toNat, ih⟩

/-- The fields of the header. -/
def headerFields (base nonce : Bytes) (raw packed : Nat) : List (Units × Tree) :=
  [(units "version", natural 1), (units "base", .arr (base.map fun b => natural b.toNat)),
    (units "nonce", .arr (nonce.map fun b => natural b.toNat)), (units "raw", natural raw),
    (units "packed", natural packed)]

/-- The header by its fields. -/
theorem headerOf_eq : headerOf base nonce raw packed = .obj (headerFields base nonce raw packed) := rfl

/-- The header is printed. -/
theorem headerFields_printed : Printed (headerFields base nonce raw packed) := by
  have hname (name : Units) (h : ∀ c ∈ name, 65 ≤ c ∧ c ≤ 122 ∧ c ≠ 92) :
      Chars name ∧ ∀ c ∈ name, Nat.isValidChar c :=
    ⟨(printed_name h 0).spelled.1, (printed_name h 0).drawn.1⟩
  have hversion := hname (units "version") (by decide)
  have hbase := hname (units "base") (by decide)
  have hnonce := hname (units "nonce") (by decide)
  have hraw := hname (units "raw") (by decide)
  have hpacked := hname (units "packed") (by decide)
  constructor
  · exact ⟨hversion.1, natural_spelled 1, hbase.1, bytes_spelled base, hnonce.1, bytes_spelled nonce, hraw.1,
      natural_spelled raw, hpacked.1, natural_spelled packed, trivial⟩
  · exact ⟨hversion.2, natural_drawn 1, hbase.2, bytes_drawn base, hnonce.2, bytes_drawn nonce, hraw.2,
      natural_drawn raw, hpacked.2, natural_drawn packed, trivial⟩

/-- The version, the base and the sizes are found again. -/
theorem headerFields_lastOf :
    lastOf (headerFields base nonce raw packed) (units "version") = some (natural 1) ∧
      lastOf (headerFields base nonce raw packed) (units "base") = some (.arr (base.map fun b => natural b.toNat)) ∧
      lastOf (headerFields base nonce raw packed) (units "raw") = some (natural raw) ∧
      lastOf (headerFields base nonce raw packed) (units "packed") = some (natural packed) :=
  ⟨rfl, rfl, rfl, rfl⟩

/-- Its sizes are read back. -/
theorem headerOf_sizes (hraw : 4 ≤ raw ∧ raw ≤ LIMIT) (hpacked : 1 ≤ packed ∧ packed ≤ LIMIT) :
    sizesOf (headerOf base nonce raw packed) = .ok ⟨raw, packed⟩ := by
  obtain ⟨hversion, -, hrawField, hpackedField⟩ := @headerFields_lastOf base nonce raw packed
  have hsmall : LIMIT < 2 ^ 53 := by decide
  have hone : (prop (headerOf base nonce raw packed) "version").bind jsNumber = some 1 := by
    rw [headerOf_eq, prop_lastOf (by decide), hversion, Option.bind_some, jsNumber_natural (by decide)]
    rfl
  have hfirst : safeProp (headerOf base nonce raw packed) "raw" = some (raw : ℤ) := by
    rw [safeProp, headerOf_eq, prop_lastOf (by decide), hrawField, Option.bind_some,
      safeInteger?_natural (by omega)]
  have hsecond : safeProp (headerOf base nonce raw packed) "packed" = some (packed : ℤ) := by
    rw [safeProp, headerOf_eq, prop_lastOf (by decide), hpackedField, Option.bind_some,
      safeInteger?_natural (by omega)]
  unfold sizesOf
  rw [if_neg (show ¬isNull (headerOf base nonce raw packed) = true from Bool.false_ne_true), if_neg (not_not.mpr hone),
    hfirst, hsecond]
  dsimp only
  rw [if_neg (by omega), Int.toNat_natCast, Int.toNat_natCast]

/-- Its base is the one that it was made of. -/
theorem headerOf_base : sameBase (headerOf base nonce raw packed) base = true := by
  obtain ⟨-, hbase, -⟩ := @headerFields_lastOf base nonce raw packed
  unfold sameBase
  rw [headerOf_eq, prop_lastOf (by decide), hbase]
  refine decide_eq_true ?_
  rw [List.map_map]
  refine List.map_congr_left fun b _ => jsNumber_natural ?_
  have hbyte := b.toNat_lt
  omega

/-- The header is short. -/
theorem headerOf_length (hbase : base.length ≤ 198) (hnonce : nonce.length ≤ 16) (hraw : raw ≤ LIMIT)
    (hpacked : packed ≤ LIMIT) : (print (headerOf base nonce raw packed)).length ≤ 1024 := by
  have hbyte (b : UInt8) : (print (natural b.toNat)).length ≤ 3 := by
    rw [natural, print]
    exact length_numeral (by decide) (Nat.lt_trans b.toNat_lt (by decide))
  have hbytes (b : Bytes) : (print (.arr (b.map fun x => natural x.toNat))).length ≤ 4 * b.length + 2 := by
    have hsum : ((b.map fun x => natural x.toNat).map fun v => (print v).length + 1).sum ≤ 4 * b.length := by
      induction b with
      | nil => exact Nat.le_refl _
      | cons x b ih =>
        have hx := hbyte x
        rw [List.map_cons, List.map_cons, List.sum_cons, List.length_cons]
        omega
    have hlist := length_print_arr (b.map fun x => natural x.toNat)
    omega
  have hnumber (n : Nat) (h : n ≤ LIMIT) : (print (natural n)).length ≤ 10 := by
    rw [natural, print]
    exact length_numeral (by decide) (Nat.lt_of_le_of_lt h (by decide))
  have hobject := length_print_obj (headerFields base nonce raw packed)
  have hone := hnumber 1 (by decide)
  have hfirst := hbytes base
  have hsecond := hbytes nonce
  have hthird := hnumber raw hraw
  have hfourth := hnumber packed hpacked
  have hnames : (units "version").length = 7 ∧ (units "base").length = 4 ∧ (units "nonce").length = 5 ∧
      (units "raw").length = 3 ∧ (units "packed").length = 6 := by decide
  obtain ⟨h1, h2, h3, h4, h5⟩ := hnames
  simp only [headerFields, List.map_cons, List.map_nil, List.sum_cons, List.sum_nil, h1, h2, h3, h4, h5] at hobject
  rw [headerOf_eq]
  simp only [headerFields]
  omega

/-- An array of bytes has one byte for each character. -/
theorem bytes_oneByte (b : Bytes) : AllOneByte (b.map fun x => natural x.toNat) := by
  induction b with
  | nil => exact trivial
  | cons x b ih => exact ⟨numeral_ascii x.toNat, ih⟩

/-- So has the header. -/
theorem headerOf_oneByte : (headerOf base nonce raw packed).OneByte := by
  have hname (name : Units) (h : ∀ c ∈ name, 65 ≤ c ∧ c ≤ 122 ∧ c ≠ 92) : Ascii name := by
    intro c hc
    have hletter := h c hc
    omega
  exact ⟨hname (units "version") (by decide), numeral_ascii 1, hname (units "base") (by decide), bytes_oneByte base,
    hname (units "nonce") (by decide), bytes_oneByte nonce, hname (units "raw") (by decide), numeral_ascii raw,
    hname (units "packed") (by decide), numeral_ascii packed, trivial⟩

/-- One byte a character, where there is nothing else. -/
theorem encodeJson_length {v : Tree} (h : v.OneByte) : (encodeJson v).length = (print v).length := by
  have hprint := print_ascii h
  have hascii : Ascii7 (String.ofList ((print v).map Char.ofNat)).toList := by
    rw [String.toList_ofList]
    intro c hc
    obtain ⟨k, hk, rfl⟩ := List.mem_map.mp hc
    have hchar : (Char.ofNat k).toNat = k := by
      rw [Char.ofNat, dif_pos (isValidChar_ascii k (hprint k hk))]
      rfl
    rw [hchar]
    exact (hprint k hk).2
  rw [encodeJson, encodeText_ascii hascii, List.length_map, String.toList_ofList, List.length_map]

/-- The header is between these sizes. -/
theorem encodeJson_header (hbase : base.length ≤ 198) (hnonce : nonce.length ≤ 16) (hraw : raw ≤ LIMIT)
    (hpacked : packed ≤ LIMIT) : 1 ≤ (encodeJson (headerOf base nonce raw packed)).length ∧
      (encodeJson (headerOf base nonce raw packed)).length ≤ 1024 := by
  rw [encodeJson_length headerOf_oneByte]
  refine ⟨?_, headerOf_length hbase hnonce hraw hpacked⟩
  rw [headerOf_eq, headerFields, print, List.length_cons]
  exact Nat.le_add_left 1 _

end Header

/-! ## §4. What the writer leaves behind. -/

section Loops

variable {α β : Type} {n m : Nat}

/-- What a sequence returns, both of its parts returned. -/
theorem bind_ok {x : Writing α} {f : α → Writing β} {b : β} (h : (x >>= f) n = .ok b m) :
    ∃ a k, x n = .ok a k ∧ f a k = .ok b m := by
  change EStateM.bind x f n = .ok b m at h
  unfold EStateM.bind at h
  split at h
  next a k hx => exact ⟨a, k, hx, h⟩
  next => cases h

/-- A call that returns has a value. -/
theorem call_ok {x : Except Fail α} {a : α} (h : call x n = .ok a m) : x = .ok a := by
  cases x with
  | ok b =>
    cases h
    rfl
  | error e => cases h

/-- A guard that has let the writer pass. -/
theorem guard_ok {c : Prop} [Decidable c] {e : Fail} {f : PUnit → Writing β} {b : β}
    (h : (if c then throw e >>= f else f ⟨⟩) n = .ok b m) : ¬c ∧ f ⟨⟩ n = .ok b m := by
  split at h
  · obtain ⟨_, _, hthrow, -⟩ := bind_ok h
    cases hthrow
  next hc => exact ⟨hc, h⟩

/-- A loop that puts one piece behind the others for each of its items. -/
theorem foldlM_ok {f : Bytes → α → Writing Bytes} {B : Bytes → Prop} {Q : α → Bytes → Prop}
    (hf : ∀ parts x n out m, f parts x n = .ok out m → B out ∧ ∃ piece, out = parts ++ piece ∧ Q x piece)
    {items : List α} {parts out : Bytes} (h : items.foldlM f parts n = .ok out m) (hparts : B parts) :
    B out ∧ ∃ pieces : List Bytes, out = parts ++ pieces.flatten ∧ List.Forall₂ Q items pieces := by
  induction items generalizing parts n with
  | nil =>
    rw [List.foldlM_nil] at h
    cases h
    exact ⟨hparts, [], (List.append_nil _).symm, .nil⟩
  | cons x items ih =>
    rw [List.foldlM_cons] at h
    -- the piece of `x`, and what the other items put behind it
    obtain ⟨next, k, hx, hrest⟩ := bind_ok h
    obtain ⟨hnext, piece, rfl, hpiece⟩ := hf parts x n next k hx
    obtain ⟨hout, pieces, rfl, hpieces⟩ := ih hrest hnext
    exact ⟨hout, piece :: pieces, by rw [List.flatten_cons, List.append_assoc], .cons hpiece hpieces⟩

end Loops

section Writer

variable {w : Writer} {n m : Nat} {file : Bytes}

/-- What comes out of the compressor is taken whole. -/
theorem Writer.collect_ok {chunks : List Bytes × Option Fail} {out : Bytes} (h : w.collect chunks n = .ok out m) :
    chunks.2 = none ∧ out = chunks.1.flatten ∧ out.length ≤ LIMIT := by
  unfold Writer.collect at h
  obtain ⟨parts, _, hloop, hrest⟩ := bind_ok h
  have hparts : parts.length ≤ LIMIT ∧
      ∃ pieces : List Bytes, parts = [] ++ pieces.flatten ∧ List.Forall₂ (· = ·) chunks.1 pieces := by
    refine foldlM_ok (B := fun b => b.length ≤ LIMIT) (fun parts value n out m hstep => ?_) hloop (Nat.zero_le _)
    obtain ⟨_, _, -, hstep⟩ := bind_ok hstep
    obtain ⟨_, _, -, hstep⟩ := bind_ok hstep
    obtain ⟨hbound, hstep⟩ := guard_ok hstep
    cases hstep
    exact ⟨Nat.le_of_not_lt hbound, value, rfl, rfl⟩
  obtain ⟨hlength, pieces, hflatten, hpieces⟩ := hparts
  rw [List.forall₂_eq_eq_eq] at hpieces
  obtain ⟨_, _, -, hrest⟩ := bind_ok hrest
  cases htail : chunks.2 with
  | some e =>
    rw [htail] at hrest
    cases hrest
  | none =>
    rw [htail] at hrest
    obtain ⟨_, _, -, hrest⟩ := bind_ok hrest
    cases hrest
    exact ⟨rfl, hpieces ▸ hflatten, hlength⟩

/-- One record stands behind the other, each sealed under the header and its place. -/
theorem Writer.seal_ok {header compressed front out : Bytes}
    (h : ((List.range (records compressed.length)).foldlM (fun (parts : Bytes) index => do
      w.check
      let sealed ← call (w.sealState index (context header index) (slice compressed (index * CHUNK) CHUNK))
      w.check
      pure (parts ++ sealed)) front : Writing Bytes) n = .ok out m) :
    ∃ sealed : List Bytes, out = front ++ sealed.flatten ∧
      List.Forall₂ (fun k c => w.sealState k (context header k) (slice compressed (k * CHUNK) CHUNK) = .ok c)
        (List.range (records compressed.length)) sealed := by
  refine (foldlM_ok (B := fun _ => True) (fun parts index n out m hstep => ?_) h trivial).2
  obtain ⟨_, _, -, hstep⟩ := bind_ok hstep
  obtain ⟨sealed, _, hseal, hstep⟩ := bind_ok hstep
  obtain ⟨_, _, -, hstep⟩ := bind_ok hstep
  cases hstep
  exact ⟨trivial, sealed, rfl, call_ok hseal⟩

/-- The parts of a file, and the calls that they are from. -/
structure Writer.Wrote (w : Writer) (metadata : List (Units × Tree)) (p : Parts) : Prop where
  state : 1 ≤ p.state.length ∧ p.state.length ≤ LIMIT
  overlay : w.stateOverlay = .ok p.overlay
  tree : p.tree = .obj (withLengths metadata p.state.length p.overlay.length)
  metadata : p.metadata = encodeJson p.tree
  prefixed : p.metadata.length ≤ 65536
  raw : p.raw.length ≤ LIMIT
  compressed : ∃ chunks : List Bytes, w.compress p.raw = (chunks, none) ∧ p.compressed = chunks.flatten
  packed : p.compressed.length ≤ LIMIT
  header : ∃ base, w.stateBase = .ok base ∧
    p.header = encodeJson (headerOf base w.nonce p.raw.length p.compressed.length)
  sealed : List.Forall₂ (fun k c => w.sealState k (context p.header k) (slice p.compressed (k * CHUNK) CHUNK) = .ok c)
    (List.range (records p.compressed.length)) p.sealed

/-- **The file that `encodeState` returns.** -/
theorem Writer.encodeState_wrote {metadata : List (Units × Tree)} {state : Bytes}
    (h : w.encodeState metadata state n = .ok file m) :
    ∃ p : Parts, w.Wrote metadata p ∧ p.state = state ∧ p.file = file := by
  unfold Writer.encodeState at h
  obtain ⟨hstate, h⟩ := guard_ok h
  obtain ⟨overlay, _, hoverlay, h⟩ := bind_ok h
  obtain ⟨htext, h⟩ := guard_ok h
  obtain ⟨hraw, h⟩ := guard_ok h
  obtain ⟨_, _, -, h⟩ := bind_ok h
  obtain ⟨compressed, _, hcollect, h⟩ := bind_ok h
  obtain ⟨base, _, hbase, h⟩ := bind_ok h
  obtain ⟨_, _, -, h⟩ := bind_ok h
  obtain ⟨hnone, hflatten, hpacked⟩ := Writer.collect_ok hcollect
  obtain ⟨sealed, rfl, hsealed⟩ := Writer.seal_ok h
  obtain ⟨hsome, hlength⟩ := not_or.mp hstate
  have hshort := Nat.le_of_not_lt htext
  have hbound := Nat.le_of_not_lt hraw
  -- the texts are as good as any from here on
  generalize htree : Tree.obj (withLengths metadata state.length overlay.length) = tree at *
  generalize hmeta : encodeJson tree = text at *
  generalize hheader : encodeJson
    (headerOf base w.nonce (u32 text.length ++ text ++ state ++ overlay).length compressed.length) = header at *
  refine ⟨⟨header, sealed, compressed, text, tree, state, overlay⟩, ?_, rfl, rfl⟩
  exact
    { state := ⟨List.length_pos_iff.mpr hsome, Nat.le_of_not_lt hlength⟩
      overlay := call_ok hoverlay
      tree := htree.symm
      metadata := hmeta.symm
      prefixed := hshort
      raw := hbound
      compressed := ⟨_, Prod.ext rfl hnone, hflatten⟩
      packed := hpacked
      header := ⟨base, call_ok hbase, hheader.symm⟩
      sealed := hsealed }

end Writer

/-! ## §5. The round trip. -/

/-- The Vault and the streams that read belong to those that have written: a record is opened under the
    context that it was sealed under, and what was compressed is given back. -/
structure Agrees (w : Writer) (setup : Setup) : Prop where
  base : w.stateBase = .ok setup.vault.base
  /-- The header of a disk. -/
  baseSize : setup.vault.base.length ≤ 198
  nonceSize : w.nonce.length = 16
  opens : ∀ k context plain sealed, w.sealState k context plain = .ok sealed →
    setup.vault.openState context sealed = .ok plain ∧ sealed.length = plain.length + 62
  inflates : ∀ raw chunks, raw ≠ [] → w.compress raw = (chunks, none) →
    chunks.flatten ≠ [] ∧ Inverts setup.inflater chunks.flatten raw

/-- The longest file is within the limit of the source. -/
theorem expected_le {length packed : Nat} (hlength : length ≤ 1024) (hpacked : packed ≤ LIMIT) :
    expected length packed ≤ LIMIT + 65536 := by
  have hrecords : records packed ≤ 1024 := by
    have hdiv : records packed ≤ (LIMIT + (CHUNK - 1)) / CHUNK :=
      Nat.div_le_div_right (Nat.add_le_add_right hpacked _)
    exact Nat.le_trans hdiv (by decide)
  unfold expected
  omega

section RoundTrip

variable {w : Writer} {setup : Setup} {metadata : List (Units × Tree)} {p : Parts}

/-- **What was written is genuine.** -/
theorem Writer.Wrote.genuine (h : w.Wrote metadata p) (ha : Agrees w setup) (hmetadata : Printed metadata) :
    Genuine setup p := by
  obtain ⟨base, hbase, hheader⟩ := h.header
  obtain rfl : setup.vault.base = base := Except.ok.inj (ha.base.symm.trans hbase)
  obtain ⟨chunks, hcompress, hflatten⟩ := h.compressed
  have hrawLength : p.raw.length = 4 + p.metadata.length + p.state.length + p.overlay.length := by
    rw [Parts.raw, List.length_append, List.length_append, List.length_append, u32, length_leBytes]
  have hrawSome : p.raw ≠ [] := List.ne_nil_of_length_pos (by omega)
  obtain ⟨hnonempty, hinverts⟩ := ha.inflates p.raw chunks hrawSome hcompress
  rw [← hflatten] at hnonempty hinverts
  have hpacked : 1 ≤ p.compressed.length ∧ p.compressed.length ≤ LIMIT :=
    ⟨List.length_pos_iff.mpr hnonempty, h.packed⟩
  have hshort : 1 ≤ p.header.length ∧ p.header.length ≤ 1024 := by
    rw [hheader]
    exact encodeJson_header ha.baseSize (Nat.le_of_eq ha.nonceSize) h.raw h.packed
  have hparsed : parseJson p.header = .ok (headerOf setup.vault.base w.nonce p.raw.length p.compressed.length) := by
    rw [hheader, headerOf_eq]
    exact parseJson_encode headerFields_printed
  have hlimit : LIMIT < 2 ^ 53 := by decide
  have hraw := h.raw
  have hstate := h.state
  refine
    { short := ⟨hshort.1, Nat.le_trans hshort.2 (by decide)⟩
      header := ?_
      base := fun tree htree => ?_
      bound := expected_le hshort.2 h.packed
      count := ?_
      opened := fun k c hk => ?_
      prefixed := h.prefixed
      metadata := ?_
      sections := ?_
      inverts := hinverts }
  · rw [hparsed]
    exact headerOf_sizes ⟨by omega, h.raw⟩ hpacked
  · rw [hparsed] at htree
    obtain rfl := Except.ok.inj htree
    exact headerOf_base
  · rw [← h.sealed.length_eq, List.length_range]
  · -- the record of number `k` is the one that was sealed at this place
    obtain ⟨hlt, hget⟩ := List.getElem?_eq_some_iff.mp hk
    have hrange : k < (List.range (records p.compressed.length)).length := by
      rw [h.sealed.length_eq]
      exact hlt
    have hseal := h.sealed.get hrange hlt
    rw [List.get_eq_getElem, List.get_eq_getElem, List.getElem_range, hget] at hseal
    obtain ⟨hopen, hlength⟩ := ha.opens _ _ _ _ hseal
    refine ⟨hopen, ?_⟩
    rw [hlength, slice, List.length_take, List.length_drop, recordSize]
  · rw [h.metadata, h.tree]
    exact parseJson_encode (withLengths_printed hmetadata)
  · rw [h.tree, hrawLength]
    exact withLengths_sections ⟨hstate.1, by omega⟩ (by omega)

/-- **A state that was written is read back**: whatever the chunks of the file and whoever comes first, as
    long as nobody interferes. -/
theorem state_round_trip {state file : Bytes} {n m : Nat} {input : Input} {events : List Event} {s : State}
    (hagrees : Agrees w setup) (hmetadata : Printed metadata) (hwrite : w.encodeState metadata state n = .ok file m)
    (hdelivers : Delivers input file) (hsmooth : ∀ e ∈ events, e.Smooth file)
    (hrun : run (step setup) (State.start input) events = some s) :
    (∀ e, s.pc ≠ .closing (.error e) ∧ s.pc ≠ .settled (.error e)) ∧
      ∀ d, s.pc = .settled (.ok d) → d.state = state ∧ w.stateOverlay = .ok d.overlay ∧
        d.metadata = .obj (withLengths metadata state.length d.overlay.length) ∧
        d.stateSha256 = hex (setup.sha256 file) := by
  obtain ⟨p, hwrote, rfl, rfl⟩ := Writer.encodeState_wrote hwrite
  obtain ⟨hsafe, hdecoded⟩ := genuine_decoded (hwrote.genuine hagrees hmetadata) hdelivers hsmooth hrun
  refine ⟨hsafe, fun d hd => ?_⟩
  obtain rfl := hdecoded d hd
  exact ⟨rfl, hwrote.overlay, hwrote.tree, rfl⟩

end RoundTrip

/-! ## §6. A writer. -/

/-- The writer to `demoSetup`. -/
def demoWriter : Writer where
  stateOverlay := .ok []
  stateBase := .ok []
  sealState := fun _ _ plain => .ok (List.replicate 62 0 ++ plain)
  compress := fun raw => ([raw], none)
  nonce := List.replicate 16 0
  refuses := quiet

/-- The writer and the reader of the demo agree. -/
theorem demoWriter_agrees : Agrees demoWriter demoSetup where
  base := rfl
  baseSize := Nat.zero_le _
  nonceSize := rfl
  opens := by
    rintro k context plain sealed hsealed
    obtain rfl := Except.ok.inj hsealed
    refine ⟨congrArg Except.ok (List.drop_left' List.length_replicate), ?_⟩
    rw [List.length_append, List.length_replicate, Nat.add_comm]
  inflates := by
    rintro raw chunks hraw hchunks
    obtain ⟨rfl, -⟩ := Prod.mk.inj hchunks
    rw [List.flatten_singleton]
    refine ⟨hraw, ⟨fun fed given next hfed _ hemits => ?_, fun given hends => ?_, fun _ _ _ _ => rfl⟩⟩
    · exact (List.isPrefixOf_iff_prefix.mp hemits).trans hfed
    · exact (of_decide_eq_true hends).symm

end My98.Web.StateFormat
