/-
  My98.Crypto.Identity — identities, disk keys and read capabilities
  (`src/crypto/src/lib.rs`: `Identity`, `ReadCapability`, `Disk`, `verify`).

  An `Identity` is derived from credentials and owns two signing seeds and a master key.
  A `Disk` is the random id and key of ONE save; its data units, its machine states and
  its descriptor are envelopes of different kinds.  The descriptor is sealed under the
  master key, which is also what the exported read key carries: that is how a reader
  without the signing seed opens the disk of every save.
-/
import My98.Crypto.Envelope
import My98.Lib.Prog

namespace My98.Crypto

open My98.Lib

/-- The range `b[off..off+n]` of a buffer known to be long enough, as an array. -/
def Block.ofSlice (b : Bytes) (off n : Nat) (h : off + n ≤ b.length) : Block n :=
  ⟨slice b off n, length_slice_of_le h⟩

def ZERO_NONCE : Block 12 := ⟨List.replicate 12 0, by simp⟩

/-! ## §1. Disks. -/

structure Disk where
  id : Block 16
  key : Block 32
  active : Bool
  deriving DecidableEq

def Disk.check (disk : Disk) : Except String Unit :=
  if disk.active then .ok () else .error "Disk is closed"

def unitNonce (unit : Bytes) : Except String (Block 12) :=
  if h : unit.length = 12 then .ok ⟨unit, h⟩
  else .error "Unit ID must contain exactly 12 bytes (unsigned LE96)"

def Disk.sealUnit (P : Primitives) (random : Option (Block 32)) (disk : Disk)
    (unitId bytes : Bytes) : Except String Bytes := do
  disk.check
  let nonce ← unitNonce unitId
  sealEnvelope P random disk.key .data nonce (disk.id.val ++ nonce.val) bytes

def Disk.openUnit (P : Primitives) (disk : Disk) (unitId envelope : Bytes) :
    Except String Bytes := do
  disk.check
  let nonce ← unitNonce unitId
  unsealEnvelope P disk.key .data nonce (disk.id.val ++ nonce.val) envelope

def Disk.sealSnapshot (P : Primitives) (random : Option (Block 32)) (disk : Disk)
    (context bytes : Bytes) : Except String Bytes := do
  disk.check
  sealEnvelope P random disk.key .snapshot ZERO_NONCE (disk.id.val ++ context) bytes

def Disk.openSnapshot (P : Primitives) (disk : Disk) (context bytes : Bytes) :
    Except String Bytes := do
  disk.check
  unsealEnvelope P disk.key .snapshot ZERO_NONCE (disk.id.val ++ context) bytes

/-- The raw disk capability: id and key, no identity. -/
def Disk.exportReadKey (disk : Disk) : Except String Bytes := do
  disk.check
  pure (disk.id.val ++ disk.key.val)

def Disk.fromReadKey (bytes : Bytes) : Except String Disk :=
  if h : bytes.length = 48 then
    .ok { id := Block.ofSlice bytes 0 16 (by omega), key := Block.ofSlice bytes 16 32 (by omega),
          active := true }
  else .error "Read key must contain exactly 48 bytes"

/-! ## §2. Identities. -/

/-- The public key is the verifying key of the signing seed for as long as the identity is
    open; `close` wipes the seed and keeps the public key. -/
structure Identity (P : Primitives) where
  signingSeed : Block 32
  relaySeed : Block 32
  masterKey : Block 32
  publicKey : Block 32
  active : Bool
  derived : active = true → publicKey = P.verifyingKey signingSeed

variable {P : Primitives}

def Identity.check (id : Identity P) : Except String Unit :=
  if id.active then .ok () else .error "Identity is closed"

/-- The length-prefixed field of the identity salt. -/
def saltField (field : String) : Bytes :=
  leBytes 4 field.utf8ByteSize ++ field.toUTF8.data.toList

/-- `Params::new(65536, 3, 4, Some(32))`, with `Algorithm::Argon2id` and `Version::V0x13`. -/
def argon2Params : Argon2Params where
  memoryCost := 65536
  timeCost := 3
  parallelism := 4
  length := 32
  algorithm := .argon2id
  version := 0x13

def deriveIdentity (P : Primitives) (username : String) (password : Bytes) (machine : String) :
    Except String (Identity P) :=
  if username.isEmpty || password.isEmpty || machine.isEmpty then
    .error "Credentials must not be empty"
  else if 4096 < username.utf8ByteSize ∨ 4096 < password.length ∨ 4096 < machine.utf8ByteSize then
    .error "Credential exceeds 4096 UTF-8 bytes"
  else
    let normalized := P.nfc username
    let normalizedMachine := P.nfc machine
    if 4096 < normalized.utf8ByteSize ∨ 4096 < normalizedMachine.utf8ByteSize then
      .error "Credential exceeds 4096 UTF-8 bytes"
    else
      let salt := P.sha256 (ascii "slop86/identity/v2\x00" ++ saltField normalized
        ++ saltField normalizedMachine)
      match P.argon2 argon2Params password (slice salt 0 16) with
      | none => .error "Key derivation failed"
      | some master =>
        let signingSeed := P.expand master.val (ascii "slop86/keys/v1") (ascii "slop86/signing/v1")
        .ok { signingSeed
              relaySeed := P.expand master.val (ascii "slop86/keys/v1") (ascii "my98/relay-signing/v1")
              masterKey := P.expand master.val (ascii "slop86/keys/v1")
                (ascii "slop86/identity-metadata/v1")
              publicKey := P.verifyingKey signingSeed
              active := true
              derived := fun _ => rfl }

def Identity.publicKeyBytes (id : Identity P) : Except String Bytes := do
  id.check
  pure id.publicKey.val

def Identity.sign (id : Identity P) (message : Bytes) : Except String Bytes := do
  id.check
  if MAX_UNIT_BYTES < message.length then .error "Message exceeds 16 MiB"
  else pure (P.sign id.signingSeed message).val

/-- A fresh disk: a random id and a random key. -/
def Identity.createDisk (id : Identity P) (randomId : Option (Block 16))
    (randomKey : Option (Block 32)) : Except String Disk := do
  id.check
  match randomId, randomKey with
  | some diskId, some key => pure { id := diskId, key, active := true }
  | _, _ => .error "Secure randomness unavailable"

def Identity.sealDescriptor (id : Identity P) (random : Option (Block 32)) (disk : Disk) :
    Except String Bytes := do
  id.check
  disk.check
  sealEnvelope P random id.masterKey .descriptor ZERO_NONCE id.publicKey.val
    (disk.id.val ++ disk.key.val)

def openDescriptor (P : Primitives) (key publicKey : Block 32) (envelope : Bytes) :
    Except String Disk := do
  let bytes ← unsealEnvelope P key .descriptor ZERO_NONCE publicKey.val envelope
  if h : bytes.length = 48 then
    pure { id := Block.ofSlice bytes 0 16 (by omega), key := Block.ofSlice bytes 16 32 (by omega),
           active := true }
  else .error AUTH

def Identity.openDisk (id : Identity P) (envelope : Bytes) : Except String Disk := do
  id.check
  openDescriptor P id.masterKey id.publicKey envelope

/-- The stable reading capability: public key and master key. -/
def Identity.exportReadKey (id : Identity P) : Except String Bytes := do
  id.check
  pure (id.publicKey.val ++ id.masterKey.val)

/-! ## §3. Read capabilities and signatures. -/

structure ReadCapability where
  publicKey : Block 32
  masterKey : Block 32

def ReadCapability.fromBytes (P : Primitives) (bytes : Bytes) : Except String ReadCapability :=
  if h : bytes.length = 64 then
    let publicKey := Block.ofSlice bytes 0 32 (by omega)
    if P.validKey publicKey then
      .ok { publicKey, masterKey := Block.ofSlice bytes 32 32 (by omega) }
    else .error "Invalid public key"
  else .error "Read key must contain exactly 64 bytes"

def ReadCapability.openDisk (P : Primitives) (cap : ReadCapability) (envelope : Bytes) :
    Except String Disk :=
  openDescriptor P cap.masterKey cap.publicKey envelope

/-- `verify`: a key or a signature of the wrong size, or an invalid key, is a failed check. -/
def verify (P : Primitives) (publicKey message signature : Bytes) : Bool :=
  if hk : publicKey.length = 32 then
    if hs : signature.length = 64 then
      P.validKey ⟨publicKey, hk⟩ && P.verifyStrict ⟨publicKey, hk⟩ message ⟨signature, hs⟩
    else false
  else false

/-! ## §4. What is sealed opens again. -/

theorem sealEnvelope_ok {random : Option (Block 32)} {key : Block 32} {kind : Kind}
    {nonce : Block 12} {context bytes e : Bytes}
    (h : sealEnvelope P random key kind nonce context bytes = .ok e) :
    ∃ useSalt, sealWithSalt P key kind nonce context bytes useSalt = .ok e := by
  unfold sealEnvelope at h
  split at h
  · cases h
  next useSalt => exact ⟨useSalt, h⟩

theorem unitNonce_ok (nonce : Block 12) : unitNonce nonce.val = .ok nonce := by
  unfold unitNonce
  rw [dif_pos nonce.property]

/-- What a disk's `sealUnit` accepted is an envelope 62 bytes longer, and `openUnit` of the
    same disk and unit returns it. -/
theorem Disk.openUnit_sealUnit (hP : P.Sound) {random : Option (Block 32)} {disk : Disk}
    {unit : Block 12} {bytes e : Bytes} (h : disk.sealUnit P random unit.val bytes = .ok e) :
    disk.openUnit P unit.val e = .ok bytes ∧ e.length = bytes.length + 62 := by
  unfold Disk.sealUnit at h
  unfold Disk.openUnit
  rw [unitNonce_ok] at h ⊢
  cases hc : disk.check with
  | error m => rw [hc] at h; cases h
  | ok u =>
    rw [hc] at h
    obtain ⟨useSalt, hs⟩ := sealEnvelope_ok h
    exact ⟨unsealEnvelope_sealWithSalt hP hs, length_sealWithSalt hP hs⟩

theorem ofSlice_append_left {m n : Nat} (a : Block m) (b : Block n)
    (h : 0 + m ≤ (a.val ++ b.val).length) : Block.ofSlice (a.val ++ b.val) 0 m h = a := by
  have ha := a.property
  refine Block.ext ?_
  show slice (a.val ++ b.val) 0 m = a.val
  rw [slice_append_left (by omega), slice_self ha]

theorem ofSlice_append_right {m n : Nat} (a : Block m) (b : Block n)
    (h : m + n ≤ (a.val ++ b.val).length) : Block.ofSlice (a.val ++ b.val) m n h = b := by
  have ha := a.property
  have hb := b.property
  refine Block.ext ?_
  show slice (a.val ++ b.val) m n = b.val
  rw [slice_append_right (by omega), ha, Nat.sub_self, slice_self hb]

/-- The descriptor of a disk opens to that disk under the identity's master key. -/
theorem Identity.openDescriptor_sealDescriptor (hP : P.Sound) {id : Identity P}
    {random : Option (Block 32)} {disk : Disk} {e : Bytes}
    (h : id.sealDescriptor random disk = .ok e) :
    openDescriptor P id.masterKey id.publicKey e = .ok disk ∧ e.length = 110 := by
  unfold Identity.sealDescriptor at h
  cases hi : id.check with
  | error m => rw [hi] at h; cases h
  | ok u =>
    cases hd : disk.check with
    | error m => rw [hi, hd] at h; cases h
    | ok u' =>
      rw [hi, hd] at h
      obtain ⟨useSalt, hs⟩ := sealEnvelope_ok h
      have h16 := disk.id.property
      have h32 := disk.key.property
      have hact : disk.active = true := by
        unfold Disk.check at hd
        split at hd
        · assumption
        · cases hd
      have hlen : (disk.id.val ++ disk.key.val).length = 48 := by simp [h16, h32]
      refine ⟨?_, by rw [length_sealWithSalt hP hs, hlen]⟩
      unfold openDescriptor
      rw [unsealEnvelope_sealWithSalt hP hs]
      show (if h : (disk.id.val ++ disk.key.val).length = 48 then _ else _) = _
      rw [dif_pos hlen, ofSlice_append_left, ofSlice_append_right, ← hact]
      rfl

/-- The exported read key gives back the two halves it was made of. -/
theorem ReadCapability.fromBytes_exportReadKey (hP : P.Sound) {id : Identity P} {b : Bytes}
    (h : id.exportReadKey = .ok b) :
    ReadCapability.fromBytes P b = .ok { publicKey := id.publicKey, masterKey := id.masterKey } := by
  unfold Identity.exportReadKey Identity.check at h
  split at h
  next hact =>
    injection h with h
    subst h
    have h1 := id.publicKey.property
    have h2 := id.masterKey.property
    unfold ReadCapability.fromBytes
    rw [dif_pos (by simp [h1, h2])]
    simp only [ofSlice_append_left, ofSlice_append_right]
    rw [if_pos (by rw [id.derived hact]; exact hP.valid_verifyingKey _)]
  next => cases h

/-- A signature made by an open identity verifies under its public key. -/
theorem Identity.verify_sign (hP : P.Sound) {id : Identity P} {message s : Bytes}
    (h : id.sign message = .ok s) :
    verify P id.publicKey.val message s = true ∧ s.length = 64 := by
  unfold Identity.sign at h
  obtain ⟨_, hcheck, h⟩ := ok_of_bind h
  unfold Identity.check at hcheck
  split at hcheck
  next hact =>
    split at h
    · cases h
    · injection h with h
      subst h
      refine ⟨?_, (P.sign id.signingSeed message).property⟩
      unfold verify
      rw [dif_pos id.publicKey.property, dif_pos (P.sign id.signingSeed message).property]
      show (P.validKey id.publicKey && P.verifyStrict id.publicKey message
        (P.sign id.signingSeed message)) = true
      rw [id.derived hact, hP.valid_verifyingKey, hP.verify_sign]
      rfl
  next => cases hcheck

end My98.Crypto
