/-
  My98.Crypto.Envelope — the authenticated envelope every secret of a disk travels in
  (`src/crypto/src/lib.rs`: `seal_with_salt`, `seal`, `unseal`).

  An envelope is a 46-byte header (magic, version, kind, a fresh 32-byte salt, the
  plaintext length) followed by the ciphertext and its 16-byte tag.  The header is part
  of the associated data, and the salt selects the subkey, so one long-lived key never
  encrypts twice under one subkey and nonce.

  The cipher, the key derivation, the signature scheme and the hash are `Primitives`:
  parameters, with what the code relies on collected in `Primitives.Sound`.
-/
import My98.Lib.Bytes

namespace My98.Crypto

open My98.Lib

/-- A Rust array `[u8; n]`. -/
@[ext] structure Block (n : Nat) where
  val : Bytes
  property : val.length = n
  deriving DecidableEq

/-- The bytes of an ASCII byte-string literal. -/
def ascii (s : String) : Bytes := s.toList.map fun c => UInt8.ofNat c.toNat

/-! ## §1. The primitives. -/

/-- The variants of Argon2. -/
inductive Algorithm where
  | argon2d
  | argon2i
  | argon2id
  deriving DecidableEq

/-- What Argon2 is called with besides the password and the salt: its costs (KiB of memory, passes,
    lanes), the length of its output, the variant and the version. -/
structure Argon2Params where
  memoryCost : Nat
  timeCost : Nat
  parallelism : Nat
  length : Nat
  algorithm : Algorithm
  version : Nat
  deriving DecidableEq

/-- The third-party functions the crate calls: HKDF-SHA256 `expand`, ChaCha20-Poly1305,
    Ed25519, SHA-256, Argon2 and Unicode NFC. -/
structure Primitives where
  /-- `expand(ikm, salt, label)`. -/
  expand : Bytes → Bytes → Bytes → Block 32
  /-- `encrypt(key, nonce, aad, msg)`; the library may refuse. -/
  encrypt : Block 32 → Block 12 → Bytes → Bytes → Option Bytes
  decrypt : Block 32 → Block 12 → Bytes → Bytes → Option Bytes
  /-- The verifying key of a signing seed. -/
  verifyingKey : Block 32 → Block 32
  sign : Block 32 → Bytes → Block 64
  /-- Whether `VerifyingKey::from_bytes` accepts the bytes. -/
  validKey : Block 32 → Bool
  verifyStrict : Block 32 → Bytes → Block 64 → Bool
  sha256 : Bytes → Bytes
  /-- `argon2(params, password, salt)`; the library may refuse. -/
  argon2 : (params : Argon2Params) → Bytes → Bytes → Option (Block params.length)
  nfc : String → String

/-- What the code relies on: decryption undoes encryption and the tag is 16 bytes long,
    a signature verifies under the key that made it, and that key is a valid one. -/
structure Primitives.Sound (P : Primitives) : Prop where
  decrypt_encrypt : ∀ {key nonce aad msg c},
    P.encrypt key nonce aad msg = some c → P.decrypt key nonce aad c = some msg
  length_encrypt : ∀ {key nonce aad msg c},
    P.encrypt key nonce aad msg = some c → c.length = msg.length + 16
  verify_sign : ∀ seed msg, P.verifyStrict (P.verifyingKey seed) msg (P.sign seed msg) = true
  valid_verifyingKey : ∀ seed, P.validKey (P.verifyingKey seed) = true

/-! ## §2. Envelopes. -/

def PREFIX : Bytes := ascii "SL86"
/-- magic(4), version(1), kind(1), use salt(32), length LE64(8). -/
def HEADER : Nat := 46
def TAG : Nat := 16
def MAX_UNIT_BYTES : Nat := 16 * 1024 * 1024
def AUTH : String := "Authentication failed"

/-- The four constants `kind: u8` ever takes. -/
inductive Kind where
  | descriptor
  | data
  | metadata
  | snapshot
  deriving DecidableEq, Repr

def Kind.code : Kind → UInt8
  | .descriptor => 1
  | .data => 2
  | .metadata => 3
  | .snapshot => 4

def Kind.label : Kind → Bytes
  | .descriptor => ascii "slop86/descriptor/v1"
  | .data => ascii "slop86/data/v1"
  | .metadata => ascii "slop86/disk-metadata/v1"
  | .snapshot => ascii "my98/machine-state/v1"

/-- The envelope header of a plaintext of `length` bytes. -/
def envelopeHeader (kind : Kind) (useSalt : Block 32) (length : Nat) : Bytes :=
  PREFIX ++ [1, kind.code] ++ useSalt.val ++ leBytes 8 length

def sealWithSalt (P : Primitives) (key : Block 32) (kind : Kind) (nonce : Block 12)
    (context bytes : Bytes) (useSalt : Block 32) : Except String Bytes :=
  if MAX_UNIT_BYTES < bytes.length then
    .error "Unit exceeds 16 MiB"
  else
    let header := envelopeHeader kind useSalt bytes.length
    let subkey := P.expand key.val useSalt.val kind.label
    match P.encrypt subkey nonce (header ++ context) bytes with
    | none => .error AUTH
    | some ciphertext => .ok (header ++ ciphertext)

/-- `seal`: the salt comes from the system's generator, which may be unavailable. -/
def sealEnvelope (P : Primitives) (random : Option (Block 32)) (key : Block 32) (kind : Kind)
    (nonce : Block 12) (context bytes : Bytes) : Except String Bytes :=
  match random with
  | none => .error "Secure randomness unavailable"
  | some useSalt => sealWithSalt P key kind nonce context bytes useSalt

/-- `unseal`. -/
def unsealEnvelope (P : Primitives) (key : Block 32) (kind : Kind) (nonce : Block 12)
    (context envelope : Bytes) : Except String Bytes :=
  if envelope.length < HEADER + TAG ∨ HEADER + TAG + MAX_UNIT_BYTES < envelope.length then
    .error AUTH
  else if slice envelope 0 4 ≠ PREFIX ∨ envelope[4]? ≠ some 1 ∨ envelope[5]? ≠ some kind.code then
    .error AUTH
  else if leNat (slice envelope 38 8) ≠ envelope.length - HEADER - TAG then
    .error AUTH
  else
    let subkey := P.expand key.val (slice envelope 6 32) kind.label
    match P.decrypt subkey nonce (slice envelope 0 HEADER ++ context) (envelope.drop HEADER) with
    | none => .error AUTH
    | some bytes => .ok bytes

/-! ## §3. The layout of an envelope. -/

theorem length_envelopeHeader (kind : Kind) (useSalt : Block 32) (n : Nat) :
    (envelopeHeader kind useSalt n).length = HEADER := by
  have hs := useSalt.property
  have hp : PREFIX.length = 4 := by decide
  simp [envelopeHeader, hp, hs, HEADER]

/-- An envelope is exactly its plaintext plus `HEADER + TAG = 62` bytes. -/
theorem length_sealWithSalt {P : Primitives} (hP : P.Sound) {key : Block 32} {kind : Kind}
    {nonce : Block 12} {context bytes e : Bytes} {useSalt : Block 32}
    (h : sealWithSalt P key kind nonce context bytes useSalt = .ok e) :
    e.length = bytes.length + 62 := by
  unfold sealWithSalt at h
  split at h
  · cases h
  · dsimp only at h
    split at h
    · cases h
    next c hc =>
      injection h with h
      subst h
      rw [List.length_append, length_envelopeHeader, hP.length_encrypt hc]
      simp only [HEADER]
      omega

theorem sealWithSalt_bound {P : Primitives} {key : Block 32} {kind : Kind}
    {nonce : Block 12} {context bytes e : Bytes} {useSalt : Block 32}
    (h : sealWithSalt P key kind nonce context bytes useSalt = .ok e) :
    bytes.length ≤ MAX_UNIT_BYTES := by
  unfold sealWithSalt at h
  split at h
  · cases h
  · omega

/-- **Opening undoes sealing**: under the same key, kind, nonce and context, `unseal`
    returns the plaintext that went in. -/
theorem unsealEnvelope_sealWithSalt {P : Primitives} (hP : P.Sound) {key : Block 32} {kind : Kind}
    {nonce : Block 12} {context bytes e : Bytes} {useSalt : Block 32}
    (h : sealWithSalt P key kind nonce context bytes useSalt = .ok e) :
    unsealEnvelope P key kind nonce context e = .ok bytes := by
  have hlen := length_sealWithSalt hP h
  have hmax := sealWithSalt_bound h
  unfold sealWithSalt at h
  rw [if_neg (by omega)] at h
  dsimp only at h
  split at h
  · cases h
  next c hc =>
    injection h with h
    have hH := length_envelopeHeader kind useSalt bytes.length
    have hsalt := useSalt.property
    have hp : PREFIX.length = 4 := by decide
    simp only [HEADER] at hH
    -- the four header fields, read back where `unseal` looks for them
    have hmagic : slice e 0 4 = PREFIX := by
      rw [← h, slice_append_left (by omega)]
      simp [envelopeHeader, slice, ← hp]
    have hver : e[4]? = some 1 := by
      rw [← h, List.getElem?_append_left (by omega)]
      simp [envelopeHeader, hp]
    have hkind : e[5]? = some kind.code := by
      rw [← h, List.getElem?_append_left (by omega)]
      simp [envelopeHeader, List.getElem?_append, hp]
    have hsaltAt : slice e 6 32 = useSalt.val := by
      rw [← h, slice_append_left (by omega), envelopeHeader, List.append_assoc _ useSalt.val,
        slice_append_right (by simp [hp]), slice_append_left (by simp [hp, hsalt])]
      simp [slice, hp, ← hsalt]
    have hlenAt : slice e 38 8 = leBytes 8 bytes.length := by
      rw [← h, slice_append_left (by omega), envelopeHeader,
        slice_append_right (by simp [hp, hsalt])]
      simp only [slice, List.length_append, hp, hsalt, List.length_cons, List.length_nil]
      exact List.take_of_length_le (by simp)
    have hheader : slice e 0 46 = envelopeHeader kind useSalt bytes.length := by
      rw [← h, slice_append_left (by omega), ← hH, slice_zero_length]
    have hbody : e.drop 46 = c := by
      rw [← h, ← hH, List.drop_left]
    have hle : leNat (leBytes 8 bytes.length) = bytes.length :=
      leNat_leBytes 8 _ (by simp only [MAX_UNIT_BYTES] at hmax; omega)
    unfold unsealEnvelope
    rw [if_neg (by simp only [HEADER, TAG, MAX_UNIT_BYTES] at *; omega),
      if_neg (by simp [hmagic, hver, hkind]),
      if_neg (by rw [hlenAt, hle]; simp only [HEADER, TAG]; omega)]
    simp only [hsaltAt, HEADER, hheader, hbody, hP.decrypt_encrypt hc]

end My98.Crypto
