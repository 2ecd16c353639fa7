/-
  My98.Web.TorrentProtocol — the browser's side of the signed records
  (`src/disk/web/torrent-protocol.js`: `verifyRecord`, `verifyLocations`, `compareRecords`).

  The browser rebuilds the signed bytes on its own, from the JSON it was given.  `payload_agrees`
  and `wire_agrees` say that they are the bytes `protocol.py` signs.  `verifyRecord_ok` and
  `verifyLocations_ok` say what the browser accepts, and `signed_messages` puts this beside the
  seedbox.

  Parameters: the Rust verifier the Worker supplies, and the WHATWG `URL` parser.
-/
import Mathlib.Algebra.Order.Ring.Nat
import Mathlib.Tactic.Common
import My98.Torrent.Records

namespace My98.Web

open My98.Lib My98.Torrent

/-! ## §1. Values and errors. -/

/-- An error with a code. -/
structure Fail where
  code : String
  message : String
  deriving DecidableEq, Repr

def invalid (message : String) : Fail := ⟨"INVALID_PUBLICATION", message⟩

def conflict (message : String) : Fail := ⟨"PUBLICATION_CONFLICT", message⟩

/-- `keysAre(value, keys)`. -/
def keysAre (value : Json) (keys : List String) : Bool :=
  decide (value.keys.length = keys.length) && keys.all fun k => decide (k ∈ value.keys)

/-- A safe integer that is at least one, however the number was written. -/
def safeSequence (value : Json) : Option Nat :=
  match value.get? "sequence" with
  | some (.int n) => if 1 ≤ n ∧ n ≤ maxSequence then some n.toNat else none
  | some (.float (some n)) => if 1 ≤ n ∧ n ≤ maxSequence then some n.toNat else none
  | _ => none

/-- `TextEncoder.encode`. -/
def utf8 (text : String) : Bytes := text.toList.flatMap String.utf8EncodeChar

/-- What a record is about. -/
inductive Contents where
  | infoHash (text : String)
  | origins (list : List String)
  deriving DecidableEq, Repr

/-- A verified record as the browser keeps it. -/
structure WebRecord where
  publicKey : String
  sequence : Nat
  contents : Contents
  signature : String
  deriving DecidableEq, Repr

/-- `verifySignature(key, payload, signature)`. -/
abbrev Verifier := (key payload signature : Bytes) → Bool

/-! ## §2. Publications. -/

def publicationPayload (seq : Nat) (infoHash : Bytes) : Bytes :=
  ascii "4:salt19:my98/publication/v13:seqi" ++ decimal seq ++ ascii "e1:vd2:ih20:" ++ infoHash ++
    ascii "e"

def verifyRecord (verify : Verifier) (value : Json) (expectedKey : String) :
    Except Fail WebRecord :=
  match keysAre value recordKeys && decide (value.text? "publicKey" = some expectedKey) &&
      decide (value.text? "salt" = some (hex publicationSalt)), safeSequence value with
  | true, some seq =>
    match hexField value "publicKey" 32, hexField value "signature" 64,
        hexField value "infoHash" 20 with
    | some key, some signature, some infoHash =>
      if verify key (publicationPayload seq infoHash) signature then
        .ok ⟨expectedKey, seq, .infoHash (hex infoHash), hex signature⟩
      else .error (invalid "Invalid publication signature")
    | _, _, _ => .error (invalid "Invalid canonical hexadecimal value")
  | _, _ => .error (invalid "Invalid signed publication destination or sequence")

/-! ## §3. Locations. -/

/-- The parts of a parsed URL that are looked at. -/
structure Url where
  protocol : String
  username : String
  password : String
  hostname : String
  pathname : String
  search : String
  hash : String
  deriving DecidableEq, Repr

/-- `new URL(text)`; `none` when it throws. -/
abbrev UrlParser := String → Option Url

def locationsKeys : List String := ["publicKey", "sequence", "origins", "signature", "salt"]

/-- `/^[\x21-\x7e]+$/`. -/
def printable (text : String) : Bool :=
  !text.isEmpty && text.toList.all fun c => decide (0x21 ≤ c.toNat ∧ c.toNat ≤ 0x7e)

/-- An origin of its own: scheme, host and nothing else. -/
def Url.isOrigin (url : Url) : Bool :=
  url.username.isEmpty && url.password.isEmpty && url.hash.isEmpty && url.search.isEmpty &&
    url.pathname == "/" && (url.protocol == "https:" || url.protocol == "http:") &&
    (url.protocol != "http:" || ["localhost", "127.0.0.1", "[::1]"].contains url.hostname)

/-- One turn of the loop over the origins. -/
def checkOrigin (parse : UrlParser) (previous : Option String) (item : Json) :
    Except Fail String :=
  match item with
  | .str origin =>
    if printable origin && !origin.endsWith "/" && previous.all (fun p => decide (p < origin)) then
      match parse origin with
      | none => .error (invalid "Invalid seedbox origin")
      | some url =>
        if url.isOrigin then .ok origin
        else .error (invalid "Use an HTTPS seedbox origin without a path")
    else .error (invalid "Noncanonical seedbox origins")
  | _ => .error (invalid "Noncanonical seedbox origins")

def checkOrigins (parse : UrlParser) : Option String → List Json → Except Fail (List String)
  | _, [] => .ok []
  | previous, item :: rest => do
    let origin ← checkOrigin parse previous item
    let others ← checkOrigins parse (some origin) rest
    return origin :: others

/-- The signed value: `concat("d7:originsl", ...origins, "e7:versioni1ee")`. -/
def originsWire (origins : List String) : Bytes :=
  ascii "d7:originsl" ++
    (origins.map fun o => decimal (utf8 o).length ++ ascii ":" ++ utf8 o).flatten ++
    ascii "e7:versioni1ee"

def locationsWirePayload (seq : Nat) (wire : Bytes) : Bytes :=
  ascii "4:salt" ++ decimal locationsSalt.length ++ ascii ":my98/locations/v13:seqi" ++
    decimal seq ++ ascii "e1:v" ++ wire

/-- `value.origins`, if it is an array. -/
def originItems (value : Json) : Option (List Json) :=
  match value.get? "origins" with
  | some (.arr items) => some items
  | _ => none

def verifyLocations (verify : Verifier) (parse : UrlParser) (value : Json) (expectedKey : String) :
    Except Fail WebRecord :=
  match keysAre value locationsKeys && decide (value.text? "publicKey" = some expectedKey) &&
      decide (value.text? "salt" = some (hex locationsSalt)), safeSequence value,
      originItems value with
  | true, some seq, some (item :: items) => do
    let origins ← checkOrigins parse none (item :: items)
    if 1000 < (originsWire origins).length then
      .error (invalid "Seedbox locations exceed BEP44 size limit")
    else
      match hexField value "publicKey" 32, hexField value "signature" 64 with
      | some key, some signature =>
        if verify key (locationsWirePayload seq (originsWire origins)) signature then
          .ok ⟨expectedKey, seq, .origins origins, hex signature⟩
        else .error (invalid "Invalid locations signature")
      | _, _ => .error (invalid "Invalid canonical hexadecimal value")
  | _, _, _ => .error (invalid "Invalid signed locations")

/-! ## §4. Comparing two records. -/

/-- `compareRecords(previous, candidate)`: is the candidate news? -/
def compareRecords (previous : Option WebRecord) (candidate : WebRecord) : Except Fail Bool :=
  match previous with
  | none => .ok true
  | some previous =>
    if previous.publicKey ≠ candidate.publicKey then
      .error (invalid "Cannot compare different publication identities")
    else if candidate.sequence < previous.sequence then
      .error (conflict "Publication is older than the highest observed version")
    else if candidate.sequence = previous.sequence then
      if candidate.contents ≠ previous.contents then
        .error (conflict "Conflicting publications have the same sequence")
      else .ok false
    else .ok true

/-! ## §5. The same bytes. -/

theorem utf8_ascii {text : String} (h : Ascii text) : utf8 text = ascii text := by
  have hchar : ∀ c : Char, c.toNat < 128 → String.utf8EncodeChar c = [UInt8.ofNat c.toNat] := by
    intro c hc
    have hval : c.val.toNat ≤ 127 := by
      have : c.val.toNat < 128 := hc
      omega
    unfold String.utf8EncodeChar
    dsimp only
    rw [if_pos hval]
    rfl
  have hlist : ∀ cs : List Char, (∀ c ∈ cs, c.toNat < 128) →
      cs.flatMap String.utf8EncodeChar = cs.map fun c => UInt8.ofNat c.toNat := by
    intro cs
    induction cs with
    | nil =>
      intro _
      rfl
    | cons c cs ih =>
      intro hcs
      rw [List.flatMap_cons, hchar c (hcs c List.mem_cons_self),
        ih fun d hd => hcs d (List.mem_cons_of_mem _ hd)]
      rfl
  exact hlist text.toList h

/-- **The publication payload of the browser is the one `signing_payload` signs.** -/
theorem payload_agrees {seq : Nat} {infoHash payload : Bytes}
    (h : signingPayload seq infoHash = .ok payload) : publicationPayload seq infoHash = payload := by
  obtain ⟨value, hvalue, h⟩ := ok_of_bind h
  unfold valueBytes at hvalue
  split at hvalue
  · obtain rfl := Except.ok.inj hvalue
    rw [mutablePayload_ok h]
    have hhead : ascii "4:salt" ++ decimal publicationSalt.length ++ ascii ":" ++ publicationSalt ++
        ascii "3:seqi" = ascii "4:salt19:my98/publication/v13:seqi" := by decide +kernel
    have hmiddle : ascii "e1:v" ++ ascii "d2:ih20:" = ascii "e1:vd2:ih20:" := by decide
    unfold publicationPayload infoValue
    rw [hhead, ← hmiddle]
    simp only [List.append_assoc]
  · cases hvalue

/-- Both sides spell a list of origins in the same way. -/
theorem originsWire_eq {origins : List String} (ho : ∀ o ∈ origins, Ascii o) :
    originsWire origins = originsValue origins := by
  unfold originsWire originsValue
  congr 3
  refine List.map_congr_left fun o ho' => ?_
  rw [utf8_ascii (ho o ho')]
  rw [ascii, List.length_map, String.length_toList]

/-- **The locations payload of the browser is the one `mutable_payload` builds.** -/
theorem wire_agrees {seq : Nat} {origins : List String} {payload : Bytes}
    (ho : ∀ o ∈ origins, Ascii o) (h : locationsPayload seq origins = .ok payload) :
    locationsWirePayload seq (originsWire origins) = payload := by
  obtain ⟨value, hvalue, h⟩ := ok_of_bind h
  unfold locationsValue at hvalue
  split at hvalue
  · cases hvalue
  · obtain rfl := Except.ok.inj hvalue
    rw [mutablePayload_ok h, originsWire_eq ho]
    have hmiddle : ascii ":" ++ locationsSalt ++ ascii "3:seqi"
        = ascii ":my98/locations/v13:seqi" := by decide
    unfold locationsWirePayload
    rw [← hmiddle]
    simp only [List.append_assoc]

/-! ## §6. The same records. -/

/-- What both sides ask of a publication record, field by field. -/
structure Accepted (check : Verifier) (value : Json) (r : Record) : Prop where
  keys : value.hasKeys recordKeys = true
  salt : value.text? "salt" = some (hex publicationSalt)
  publicKey : hexField value "publicKey" 32 = some r.publicKey
  signature : hexField value "signature" 64 = some r.signature
  infoHash : hexField value "infoHash" 20 = some r.infoHash
  sequence : sequenceField value = some r.sequence
  signed : check r.publicKey (publicationPayload r.sequence r.infoHash) r.signature = true

theorem hexField_length {value : Json} {name : String} {n : Nat} {b : Bytes}
    (h : hexField value name n = some b) : b.length = n := by
  obtain ⟨text, -, hb⟩ := Option.bind_eq_some_iff.mp h
  exact (hex_unhex hb).2

theorem hexField_text {value : Json} {name : String} {n : Nat} {b : Bytes}
    (h : hexField value name n = some b) : value.text? name = some (hex b) := by
  obtain ⟨text, htext, hb⟩ := Option.bind_eq_some_iff.mp h
  rw [htext, (hex_unhex hb).1]

theorem sequenceField_range {value : Json} {n : Nat} (h : sequenceField value = some n) :
    1 ≤ n ∧ n ≤ maxSequence := by
  unfold sequenceField at h
  split at h
  · split at h
    · obtain rfl := Option.some.inj h
      omega
    · cases h
  · cases h

/-- The Python check of a record with fields of the right sizes is the signature check. -/
theorem verify_ok_iff {wire : Wire} {r : Record} (hkey : r.publicKey.length = 32)
    (hsig : r.signature.length = 64) (hih : r.infoHash.length = 20) (hseq : 1 ≤ r.sequence)
    (hmax : r.sequence ≤ maxSequence) :
    (∃ u, r.verify wire = .ok u) ↔
      wire.check r.publicKey (publicationPayload r.sequence r.infoHash) r.signature = true := by
  obtain ⟨payload, hpayload⟩ : ∃ payload, signingPayload r.sequence r.infoHash = .ok payload := by
    unfold signingPayload valueBytes mutablePayload Torrent.sequence
    rw [if_pos hih, if_pos ⟨hseq, hmax⟩]
    exact ⟨_, rfl⟩
  have hagree := payload_agrees hpayload
  unfold Record.verify checked
  rw [if_neg (by omega), hpayload, hagree]
  dsimp only
  constructor
  · rintro ⟨u, h⟩
    split at h
    · assumption
    · cases h
  · intro h
    rw [if_pos h]
    exact ⟨(), rfl⟩

theorem decode_iff {wire : Wire} {value : Json} {r : Record}
    (hkeys : value.hasKeys recordKeys = true)
    (hsalt : value.text? "salt" = some (hex publicationSalt)) :
    Record.decode wire value = some r ↔ Accepted wire.check value r := by
  constructor
  · intro h
    unfold Record.decode at h
    split at h
    next publicKey signature seq infoHash hpk hsig hseq hih =>
      have hr := sequenceField_range hseq
      split at h
      next u hverify =>
        obtain rfl := Option.some.inj h
        refine ⟨hkeys, hsalt, hpk, hsig, hih, hseq, ?_⟩
        exact (verify_ok_iff (hexField_length hpk) (hexField_length hsig) (hexField_length hih)
          hr.1 hr.2).mp ⟨u, hverify⟩
      · cases h
    · cases h
  · intro h
    have hr := sequenceField_range h.sequence
    obtain ⟨u, hverify⟩ := (verify_ok_iff (hexField_length h.publicKey)
      (hexField_length h.signature) (hexField_length h.infoHash) hr.1 hr.2).mpr h.signed
    unfold Record.decode
    rw [h.publicKey, h.signature, h.sequence, h.infoHash]
    dsimp only
    rw [hverify]

theorem fromJson_ok {wire : Wire} {value : Json} {expectedKey : Option Bytes} {r : Record} :
    Record.fromJson wire value expectedKey = .ok r ↔
      Accepted wire.check value r ∧ (expectedKey = none ∨ expectedKey = some r.publicKey) := by
  unfold Record.fromJson
  split
  next hfields =>
    obtain ⟨hkeys, hsalt⟩ := hfields
    rw [← decode_iff hkeys hsalt]
    cases hd : Record.decode wire value with
    | none => simp
    | some r' =>
      dsimp only
      unfold Record.expect
      constructor
      · intro h
        split at h
        next hexp =>
          obtain rfl := Except.ok.inj h
          exact ⟨rfl, hexp⟩
        · cases h
      · rintro ⟨h, hexp⟩
        obtain rfl := Option.some.inj h
        rw [if_pos hexp]
  next hfields =>
    constructor
    · intro h
      cases h
    · rintro ⟨h, -⟩
      exact absurd ⟨h.keys, h.salt⟩ hfields

/-- Without fractions and exponents the two notions of a sequence are one. -/
theorem safeSequence_eq {value : Json}
    (hint : ∀ q, value.get? "sequence" ≠ some (.float q)) :
    safeSequence value = sequenceField value := by
  unfold safeSequence sequenceField
  split
  next n h => rw [h]
  next n h => exact absurd h (hint _)
  next h₁ h₂ =>
    split
    next n h => exact absurd h (h₁ n)
    · rfl

theorem verifyRecord_ok {verify : Verifier} {value : Json} (hnodup : value.keys.Nodup)
    (hint : ∀ q, value.get? "sequence" ≠ some (.float q)) {expectedKey : String} {w : WebRecord} :
    verifyRecord verify value expectedKey = .ok w ↔
      ∃ r, Accepted verify value r ∧ hex r.publicKey = expectedKey ∧
        w = ⟨expectedKey, r.sequence, .infoHash (hex r.infoHash), hex r.signature⟩ := by
  have hkeys : keysAre value recordKeys = value.hasKeys recordKeys :=
    (Json.hasKeys_eq_length hnodup (by decide)).symm
  unfold verifyRecord
  rw [hkeys, safeSequence_eq hint]
  constructor
  · intro h
    split at h
    next seq hfields hseq =>
      simp only [Bool.and_eq_true, decide_eq_true_eq] at hfields
      obtain ⟨⟨hkeys, hpk⟩, hsalt⟩ := hfields
      split at h
      next key signature infoHash hkey hsig hih =>
        split at h
        next hcheck =>
          obtain rfl := Except.ok.inj h
          have htext := hexField_text hkey
          rw [hpk] at htext
          exact ⟨⟨key, seq, infoHash, signature⟩, ⟨hkeys, hsalt, hkey, hsig, hih, hseq, hcheck⟩,
            (Option.some.inj htext).symm, rfl⟩
        · cases h
      · cases h
    · cases h
  · rintro ⟨r, h, hexp, rfl⟩
    have htext := hexField_text h.publicKey
    rw [hexp] at htext
    rw [h.keys, htext, h.salt, h.sequence, h.publicKey, h.signature, h.infoHash]
    simp only [decide_true, Bool.and_self]
    rw [if_pos h.signed]

/-- A printable text has one byte a character. -/
theorem ascii_of_printable {text : String} (h : printable text = true) : Ascii text := by
  simp only [printable, Bool.and_eq_true, List.all_eq_true, decide_eq_true_eq] at h
  intro c hc
  have := (h.2 c hc).2
  omega

theorem checkOrigins_ascii {parse : UrlParser} {previous : Option String} {items : List Json}
    {origins : List String} (h : checkOrigins parse previous items = .ok origins) :
    ∀ o ∈ origins, Ascii o := by
  induction items generalizing previous origins with
  | nil =>
    obtain rfl := Except.ok.inj h
    simp
  | cons item rest ih =>
    obtain ⟨origin, horigin, h⟩ := ok_of_bind h
    obtain ⟨others, hothers, h⟩ := ok_of_bind h
    obtain rfl := Except.ok.inj h
    refine List.forall_mem_cons.mpr ⟨?_, ih hothers⟩
    unfold checkOrigin at horigin
    split at horigin
    next text =>
      split at horigin
      next htext =>
        simp only [Bool.and_eq_true] at htext
        split at horigin
        · cases horigin
        · split at horigin
          · obtain rfl := Except.ok.inj horigin
            exact ascii_of_printable htext.1.1
          · cases horigin
      · cases horigin
    · cases horigin

/-- `mutable_payload` builds the payload of origins that are not too long. -/
theorem locationsPayload_iff {seq : Nat} {origins : List String} {payload : Bytes}
    (hseq : 1 ≤ seq ∧ seq ≤ maxSequence) (ho : ∀ o ∈ origins, Ascii o) :
    locationsPayload seq origins = .ok payload ↔
      (originsWire origins).length ≤ 1000 ∧ payload = locationsWirePayload seq (originsWire origins) := by
  constructor
  · intro h
    have hpayload := wire_agrees ho h
    obtain ⟨value, hvalue, -⟩ := ok_of_bind h
    unfold locationsValue at hvalue
    split at hvalue
    · cases hvalue
    · rw [originsWire_eq ho]
      exact ⟨by omega, by rw [← originsWire_eq ho, hpayload]⟩
  · rintro ⟨hlen, rfl⟩
    have hbuilt : ∃ payload, locationsPayload seq origins = .ok payload := by
      unfold locationsPayload locationsValue mutablePayload Torrent.sequence
      rw [originsWire_eq ho] at hlen
      rw [if_neg (by omega), if_pos hseq]
      exact ⟨_, rfl⟩
    obtain ⟨payload, hpayload⟩ := hbuilt
    rw [hpayload, wire_agrees ho hpayload]

theorem safeSequence_range {value : Json} {n : Nat} (h : safeSequence value = some n) :
    1 ≤ n ∧ n ≤ maxSequence := by
  unfold safeSequence at h
  split at h
  · split at h
    · obtain rfl := Option.some.inj h
      omega
    · cases h
  · split at h
    · obtain rfl := Option.some.inj h
      omega
    · cases h
  · cases h

/-- What the browser asks of a locations record: the fields, and that the verifier accepts, under
    the key, the payload that `mutable_payload` builds. -/
structure Located (check : Verifier) (parse : UrlParser) (value : Json) (l : Locations) : Prop where
  keys : keysAre value locationsKeys = true
  salt : value.text? "salt" = some (hex locationsSalt)
  publicKey : hexField value "publicKey" 32 = some l.publicKey
  signature : hexField value "signature" 64 = some l.signature
  sequence : safeSequence value = some l.sequence
  origins : ∃ item items, originItems value = some (item :: items) ∧
    checkOrigins parse none (item :: items) = .ok l.origins
  signed : ∃ payload, locationsPayload l.sequence l.origins = .ok payload ∧
    check l.publicKey payload l.signature = true

theorem verifyLocations_ok {verify : Verifier} {parse : UrlParser} {value : Json}
    {expectedKey : String} {w : WebRecord} :
    verifyLocations verify parse value expectedKey = .ok w ↔
      ∃ l, Located verify parse value l ∧ hex l.publicKey = expectedKey ∧
        w = ⟨expectedKey, l.sequence, .origins l.origins, hex l.signature⟩ := by
  unfold verifyLocations
  constructor
  · intro h
    split at h
    next seq item items hfields hseq hitems =>
      simp only [Bool.and_eq_true, decide_eq_true_eq] at hfields
      obtain ⟨⟨hkeys, hpk⟩, hsalt⟩ := hfields
      obtain ⟨origins, horigins, h⟩ := ok_of_bind h
      split at h
      · cases h
      next hlen =>
        split at h
        next key signature hkey hsig =>
          split at h
          next hcheck =>
            obtain rfl := Except.ok.inj h
            have htext := hexField_text hkey
            rw [hpk] at htext
            have hpayload : locationsPayload seq origins = .ok _ :=
              (locationsPayload_iff (safeSequence_range hseq) (checkOrigins_ascii horigins)).mpr
                ⟨by omega, rfl⟩
            exact ⟨⟨key, seq, origins, signature⟩,
              ⟨hkeys, hsalt, hkey, hsig, hseq, ⟨item, items, hitems, horigins⟩, _, hpayload, hcheck⟩,
              (Option.some.inj htext).symm, rfl⟩
          · cases h
        · cases h
    · cases h
  · rintro ⟨l, h, hexp, rfl⟩
    obtain ⟨item, items, hitems, horigins⟩ := h.origins
    obtain ⟨payload, hpayload, hcheck⟩ := h.signed
    obtain ⟨hlen, rfl⟩ :=
      (locationsPayload_iff (safeSequence_range h.sequence) (checkOrigins_ascii horigins)).mp hpayload
    have htext := hexField_text h.publicKey
    rw [hexp] at htext
    rw [h.keys, htext, h.salt, h.sequence, hitems]
    simp only [decide_true, Bool.and_self]
    rw [horigins]
    show (if 1000 < (originsWire l.origins).length then _ else _) = _
    rw [if_neg (by omega), h.publicKey, h.signature]
    dsimp only
    rw [if_pos hcheck]

theorem hex_injective {a b : Bytes} (h : hex a = hex b) : a = b := by
  have hlen : a.length = b.length := by
    have := length_hex a
    rw [h, length_hex] at this
    omega
  have ha := unhex_hex a
  rw [h, hlen, unhex_hex b] at ha
  exact (Option.some.inj ha).symm

/-- **Signed messages.**  The three families of messages are disjoint, each spells one record,
    both implementations build the same bytes, and both accept the same publication records.  The
    browser accepts a locations record exactly where the verifier accepts, under its key, the
    payload that `mutable_payload` builds. -/
theorem signed_messages :
    (∀ b b', Disk.signed b = Disk.signed b' → b = b') ∧
    (∀ seq seq' infoHash infoHash' payload, signingPayload seq infoHash = .ok payload →
      signingPayload seq' infoHash' = .ok payload → seq = seq' ∧ infoHash = infoHash') ∧
    (∀ seq seq' origins origins' payload, (∀ o ∈ origins, Ascii o) → (∀ o ∈ origins', Ascii o) →
      locationsPayload seq origins = .ok payload → locationsPayload seq' origins' = .ok payload →
      seq = seq' ∧ origins = origins') ∧
    (∀ seq infoHash seq' origins p p', signingPayload seq infoHash = .ok p →
      locationsPayload seq' origins = .ok p' →
      p ≠ p' ∧ ∀ b, p ≠ Disk.signed b ∧ p' ≠ Disk.signed b) ∧
    (∀ seq infoHash payload, signingPayload seq infoHash = .ok payload →
      publicationPayload seq infoHash = payload) ∧
    (∀ seq origins payload, (∀ o ∈ origins, Ascii o) → locationsPayload seq origins = .ok payload →
      locationsWirePayload seq (originsWire origins) = payload) ∧
    (∀ (verify : Verifier) (parse : UrlParser) (value : Json) (expectedKey : String) (w : WebRecord),
      verifyLocations verify parse value expectedKey = .ok w ↔
        ∃ l, Located verify parse value l ∧ hex l.publicKey = expectedKey ∧
          w = ⟨expectedKey, l.sequence, .origins l.origins, hex l.signature⟩) ∧
    ∀ (wire : Wire) (value : Json), value.keys.Nodup →
      (∀ q, value.get? "sequence" ≠ some (.float q)) →
      (∀ key, (∃ w, verifyRecord wire.check value (hex key) = .ok w) ↔
        ∃ r, Record.fromJson wire value (some key) = .ok r) ∧
      ((∃ expectedKey w, verifyRecord wire.check value expectedKey = .ok w) ↔
        ∃ r, Record.fromJson wire value none = .ok r) := by
  refine ⟨fun b b' h => List.append_cancel_left h, fun _ _ _ _ _ => publication_injective,
    fun _ _ _ _ _ => locations_injective, ?_, fun _ _ _ => payload_agrees,
    fun _ _ _ => wire_agrees, fun _ _ _ _ _ => verifyLocations_ok, ?_⟩
  · intro seq infoHash seq' origins p p' hp hp'
    obtain ⟨value, -, hp⟩ := ok_of_bind hp
    obtain ⟨value', -, hp'⟩ := ok_of_bind hp'
    exact ⟨salts_apart hp hp', fun b => ⟨headers_apart hp, headers_apart hp'⟩⟩
  · intro wire value hnodup hint
    constructor
    · intro key
      constructor
      · rintro ⟨w, hw⟩
        obtain ⟨r, hr, hkey, -⟩ := (verifyRecord_ok hnodup hint).mp hw
        refine ⟨r, fromJson_ok.mpr ⟨hr, .inr ?_⟩⟩
        rw [hex_injective hkey]
      · rintro ⟨r, hr⟩
        obtain ⟨hr, hexp⟩ := fromJson_ok.mp hr
        have hkey : key = r.publicKey := by
          obtain hnone | hsome := hexp
          · cases hnone
          · exact Option.some.inj hsome
        exact ⟨_, (verifyRecord_ok hnodup hint).mpr ⟨r, hr, by rw [hkey], rfl⟩⟩
    · constructor
      · rintro ⟨expectedKey, w, hw⟩
        obtain ⟨r, hr, -, -⟩ := (verifyRecord_ok hnodup hint).mp hw
        exact ⟨r, fromJson_ok.mpr ⟨hr, .inl rfl⟩⟩
      · rintro ⟨r, hr⟩
        obtain ⟨hr, -⟩ := fromJson_ok.mp hr
        exact ⟨_, _, (verifyRecord_ok hnodup hint).mpr ⟨r, hr, rfl, rfl⟩⟩

end My98.Web
