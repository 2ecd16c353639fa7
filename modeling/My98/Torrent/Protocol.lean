/-
  My98.Torrent.Protocol — the signed values of the DHT (`protocol.py`).

  A publication RECORD names a descriptor torrent, a LOCATIONS record names seedbox origins;
  both carry the public key, a sequence number and an Ed25519 signature over the BEP44 payload.
  Everything the torrent side decides about two records of one identity goes through
  `compare`: older is a conflict, the same sequence with another value is a conflict, the same
  value again changes nothing.

  Two things are parameters (`Wire`): the Ed25519 check itself, and the URL normalisation of
  `location_origins`.
-/
import Mathlib.Algebra.Order.Ring.Nat
import Mathlib.Tactic.Common
import My98.Lib.Bytes
import My98.Lib.Prog

namespace My98.Torrent

open My98.Lib

/-! ## §1. Exceptions, sequences and payloads. -/

/-- The exceptions: `Conflict` is a `PublicationError`, and everything else (client, timeout
    and operating-system errors) is `other`. -/
inductive Failure where
  | conflict (text : String)
  | publication (text : String)
  | other (text : String)
  deriving DecidableEq, Repr

/-- `except Conflict` catches it. -/
def Failure.isConflict : Failure → Bool
  | .conflict _ => true
  | _ => false

/-- `if p: raise e`. -/
def raiseIf (p : Prop) [Decidable p] (e : Failure) : Except Failure Unit :=
  if p then .error e else .ok ()

theorem raiseIf_ok {p : Prop} [Decidable p] {e : Failure} {u : Unit}
    (h : raiseIf p e = .ok u) : ¬ p := by
  intro hp
  rw [raiseIf, if_pos hp] at h
  cases h

theorem raiseIf_error {p : Prop} [Decidable p] {e e' : Failure}
    (h : raiseIf p e = .error e') : p ∧ e' = e := by
  unfold raiseIf at h
  split at h
  · exact ⟨‹_›, (Except.error.inj h).symm⟩
  · cases h

/-- The bytes of an ASCII literal of the source. -/
def ascii (text : String) : Bytes := text.toList.map fun c => UInt8.ofNat c.toNat

/-- `str(n).encode()`. -/
def decimal (n : Nat) : Bytes := (Nat.toDigits 10 n).map fun c => UInt8.ofNat c.toNat

def publicationSalt : Bytes := ascii "my98/publication/v1"

def locationsSalt : Bytes := ascii "my98/locations/v1"

def maxSequence : Nat := 2 ^ 53 - 1

/-- `sequence`: a positive safe integer. -/
def sequence (value : Nat) : Except Failure Nat :=
  if 1 ≤ value ∧ value ≤ maxSequence then .ok value
  else .error (.publication "Sequence must be a positive safe integer")

/-- `next_sequence`: the clock, or one more than the highest known sequence if that is later. -/
def nextSequence (maximum now : Nat) : Except Failure Nat :=
  if maximum > maxSequence then .error (.publication "Invalid known sequence")
  else if now > maxSequence then .error (.publication "Invalid publication time")
  else sequence (max now (maximum + 1))

/-- The next sequence is above every known one. -/
theorem lt_of_nextSequence {maximum now next : Nat} (h : nextSequence maximum now = .ok next) :
    maximum < next := by
  unfold nextSequence sequence at h
  split at h
  · cases h
  · split at h
    · cases h
    · split at h
      · have := Except.ok.inj h
        omega
      · cases h

/-- The bencoded dictionary around an info hash. -/
def infoValue (infoHash : Bytes) : Bytes := ascii "d2:ih20:" ++ infoHash ++ ascii "e"

def valueBytes (infoHash : Bytes) : Except Failure Bytes :=
  if infoHash.length = 20 then .ok (infoValue infoHash)
  else .error (.publication "Invalid binary infohash")

def mutablePayload (salt : Bytes) (seq : Nat) (value : Bytes) : Except Failure Bytes := do
  let seq ← sequence seq
  return ascii "4:salt" ++ decimal salt.length ++ ascii ":" ++ salt ++ ascii "3:seqi" ++
    decimal seq ++ ascii "e1:v" ++ value

def signingPayload (seq : Nat) (infoHash : Bytes) : Except Failure Bytes := do
  let value ← valueBytes infoHash
  mutablePayload publicationSalt seq value

/-- The bencoded dictionary around a list of origins. -/
def originsValue (origins : List String) : Bytes :=
  ascii "d7:originsl" ++
    (origins.map fun origin => decimal origin.length ++ ascii ":" ++ ascii origin).flatten ++
    ascii "e7:versioni1ee"

/-- `locations_value`, of origins that `location_origins` has already normalised. -/
def locationsValue (origins : List String) : Except Failure Bytes :=
  if (originsValue origins).length > 1000 then
    .error (.publication "Seedbox locations exceed the BEP44 1000-byte limit")
  else .ok (originsValue origins)

/-! ## §2. Records. -/

/-- What the protocol is given: `VerifyKey(key).verify(payload, signature)`, and
    `location_origins`, which returns the normalised origins or raises a `PublicationError`
    with the text it gives. -/
structure Wire where
  check : (key payload signature : Bytes) → Bool
  origins : List String → Except String (List String)

/-- `location_origins(origins)`. -/
def Wire.locationOrigins (wire : Wire) (origins : List String) : Except Failure (List String) :=
  (wire.origins origins).mapError .publication

/-- A signed publication: `Record`. -/
structure Record where
  publicKey : Bytes
  sequence : Nat
  infoHash : Bytes
  signature : Bytes
  deriving DecidableEq, Repr

/-- Signed seedbox origins: `Locations`. -/
structure Locations where
  publicKey : Bytes
  sequence : Nat
  origins : List String
  signature : Bytes
  deriving DecidableEq, Repr

/-- A value is signed when the payload could be built and the signature is for it. -/
def checked (wire : Wire) (key signature : Bytes) (payload : Except Failure Bytes)
    (text : String) : Except Failure Unit :=
  match payload with
  | .ok bytes => if wire.check key bytes signature then .ok () else .error (.publication text)
  | .error _ => .error (.publication text)

def Record.verify (wire : Wire) (r : Record) : Except Failure Unit :=
  if r.publicKey.length ≠ 32 ∨ r.signature.length ≠ 64 then
    .error (.publication "Invalid key or signature size")
  else
    checked wire r.publicKey r.signature (signingPayload r.sequence r.infoHash)
      "Invalid publication signature"

def Locations.verify (wire : Wire) (l : Locations) : Except Failure Unit := do
  raiseIf (l.publicKey.length ≠ 32 ∨ l.signature.length ≠ 64)
    (.publication "Invalid locations record")
  let origins ← wire.locationOrigins l.origins
  raiseIf (l.origins ≠ origins) (.publication "Invalid locations record")
  -- the value is built inside the `try`, where origins that are too long fail as the signature does
  checked wire l.publicKey l.signature
    (locationsValue origins >>= mutablePayload locationsSalt l.sequence) "Invalid locations signature"

theorem checked_error {wire : Wire} {key signature : Bytes} {payload : Except Failure Bytes}
    {text : String} {e : Failure} (h : checked wire key signature payload text = .error e) :
    e = .publication text := by
  unfold checked at h
  split at h
  · split at h
    · cases h
    · exact (Except.error.inj h).symm
  · exact (Except.error.inj h).symm

theorem Record.verify_error {wire : Wire} {r : Record} {e : Failure}
    (h : r.verify wire = .error e) : e.isConflict = false := by
  unfold Record.verify at h
  split at h
  · obtain rfl := Except.error.inj h
    rfl
  · rw [checked_error h]
    rfl

theorem Wire.locationOrigins_error {wire : Wire} {origins : List String} {e : Failure}
    (h : wire.locationOrigins origins = .error e) : e.isConflict = false := by
  unfold Wire.locationOrigins at h
  cases ho : wire.origins origins with
  | error text =>
    rw [ho] at h
    obtain rfl := Except.error.inj h
    rfl
  | ok normal =>
    rw [ho] at h
    cases h

theorem Locations.verify_error {wire : Wire} {l : Locations} {e : Failure}
    (h : l.verify wire = .error e) : e.isConflict = false := by
  obtain h | ⟨_, -, h⟩ := error_of_bind h
  · rw [(raiseIf_error h).2]
    rfl
  obtain h | ⟨origins, -, h⟩ := error_of_bind h
  · exact Wire.locationOrigins_error h
  obtain h | ⟨_, -, h⟩ := error_of_bind h
  · rw [(raiseIf_error h).2]
    rfl
  · rw [checked_error h]
    rfl

/-- What `compare`, `put` and `resolve` use of either kind of record. -/
class Signed (α : Type) where
  publicKey : α → Bytes
  sequence : α → Nat
  /-- The bencoded bytes that the signature binds besides the sequence. -/
  value : α → Bytes
  verify : Wire → α → Except Failure Unit
  /-- An invalid record is a `PublicationError`, never a `Conflict`. -/
  verify_error : ∀ {wire r e}, verify wire r = .error e → e.isConflict = false

instance : Signed Record where
  publicKey := Record.publicKey
  sequence := Record.sequence
  value r := infoValue r.infoHash
  verify := Record.verify
  verify_error := Record.verify_error

instance : Signed Locations where
  publicKey := Locations.publicKey
  sequence := Locations.sequence
  value l := originsValue l.origins
  verify := Locations.verify
  verify_error := Locations.verify_error

/-- Who signs: a public key, and `SigningKey(seed).sign`. -/
structure Signer where
  publicKey : Bytes
  sign : Bytes → Bytes

def Record.sign (wire : Wire) (signer : Signer) (seq : Nat) (infoHash : Bytes) :
    Except Failure Record := do
  let payload ← signingPayload seq infoHash
  let record : Record := ⟨signer.publicKey, seq, infoHash, signer.sign payload⟩
  record.verify wire
  return record

def Locations.sign (wire : Wire) (signer : Signer) (seq : Nat) (origins : List String) :
    Except Failure Locations := do
  let origins ← wire.locationOrigins origins
  let value ← locationsValue origins
  let payload ← mutablePayload locationsSalt seq value
  let locations : Locations := ⟨signer.publicKey, seq, origins, signer.sign payload⟩
  locations.verify wire
  return locations

theorem Record.sign_sequence {wire : Wire} {signer : Signer} {seq : Nat} {infoHash : Bytes}
    {r : Record} (h : Record.sign wire signer seq infoHash = .ok r) : r.sequence = seq := by
  obtain ⟨payload, -, h⟩ := ok_of_bind h
  obtain ⟨_, -, h⟩ := ok_of_bind h
  obtain rfl := Except.ok.inj h
  rfl

/-! ## §3. Comparing two records of one identity. -/

section Compare

variable {α : Type} [Signed α]

/-- `compare(previous, candidate)`: is the candidate news?  Raises for an older one and for
    another value at the same sequence. -/
def compare (wire : Wire) (previous : Option α) (candidate : α) : Except Failure Bool := do
  Signed.verify wire candidate
  match previous with
  | none => return true
  | some previous =>
    Signed.verify wire previous
    if Signed.publicKey previous ≠ Signed.publicKey candidate then
      throw (.publication "Cannot compare different identities")
    else if Signed.sequence candidate < Signed.sequence previous then
      throw (.conflict "Publication is older than the highest observed version")
    else if Signed.sequence candidate = Signed.sequence previous then
      if Signed.value candidate ≠ Signed.value previous then
        throw (.conflict "Conflicting publications have the same sequence")
      else return false
    else return true

/-- Is `found` newer than `candidate`, or another value at the same sequence?  The condition of
    the native put callback and of `compare`. -/
def Supersedes (found candidate : α) : Prop :=
  Signed.sequence candidate < Signed.sequence found ∨
    (Signed.sequence candidate = Signed.sequence found ∧
      Signed.value candidate ≠ Signed.value found)

instance (found candidate : α) : Decidable (Supersedes found candidate) := by
  unfold Supersedes
  infer_instance

/-- A comparison raises `Conflict` only where the previous record supersedes the candidate. -/
theorem supersedes_of_compare {wire : Wire} {previous : Option α} {candidate : α} {e : Failure}
    (h : compare wire previous candidate = .error e) (he : e.isConflict = true) :
    ∃ p, previous = some p ∧ Supersedes p candidate := by
  unfold compare at h
  cases hc : Signed.verify wire candidate with
  | error e' =>
    rw [hc] at h
    obtain rfl := Except.error.inj h
    rw [Signed.verify_error hc] at he
    cases he
  | ok _ =>
    rw [hc] at h
    cases previous with
    | none => cases h
    | some p =>
      refine ⟨p, rfl, ?_⟩
      cases hp : Signed.verify wire p with
      | error e' =>
        simp only [bind, Except.bind, hp] at h
        obtain rfl := Except.error.inj h
        rw [Signed.verify_error hp] at he
        cases he
      | ok _ =>
        simp only [bind, Except.bind, hp, throw, throwThe, MonadExceptOf.throw] at h
        unfold Supersedes
        split at h
        · obtain rfl := Except.error.inj h
          cases he
        · split at h
          · left
            assumption
          · split at h
            · split at h
              · right
                exact ⟨‹_›, ‹_›⟩
              · cases h
            · cases h

/-- What a comparison that succeeds says about the two records. -/
theorem compare_ok {wire : Wire} {previous candidate : α} {news : Bool}
    (h : compare wire (some previous) candidate = .ok news) :
    Signed.publicKey previous = Signed.publicKey candidate ∧
      (news = true ∧ Signed.sequence previous < Signed.sequence candidate ∨
        news = false ∧ Signed.sequence previous = Signed.sequence candidate ∧
          Signed.value previous = Signed.value candidate) := by
  obtain ⟨_, -, h⟩ := ok_of_bind h
  obtain ⟨_, -, h⟩ := ok_of_bind h
  simp only [throw, throwThe, MonadExceptOf.throw] at h
  split at h
  · cases h
  · rename_i hkey
    refine ⟨not_not.mp hkey, ?_⟩
    split at h
    · cases h
    · split at h
      · split at h
        · cases h
        · rename_i hseq hval
          obtain rfl := Except.ok.inj h
          exact .inr ⟨rfl, hseq.symm, (not_not.mp hval).symm⟩
      · obtain rfl := Except.ok.inj h
        exact .inl ⟨rfl, by omega⟩

/-- A first record is always news. -/
theorem compare_none {wire : Wire} {candidate : α} {news : Bool}
    (h : compare wire none candidate = .ok news) : news = true := by
  obtain ⟨_, -, h⟩ := ok_of_bind h
  exact (Except.ok.inj h).symm

end Compare

/-- A publication descriptor: the disk, and the optional state and profile, each the info hash
    of a torrent. -/
structure Descriptor where
  disk : Bytes
  state : Option Bytes
  profile : Option Bytes
  deriving DecidableEq, Repr

/-- The components a descriptor names, in the order of its fields. -/
def Descriptor.components (d : Descriptor) : List Bytes :=
  d.disk :: (d.state.toList ++ d.profile.toList)

end My98.Torrent
