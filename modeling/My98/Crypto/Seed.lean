/-
  My98.Crypto.Seed — the identity of a login, derived once more
  (`src/scripts/identity.py`: `derive_seed`).

  The command line derives the signing seed on its own, with HMAC written out where the crate
  uses HKDF.  `derive_agrees` says that it is the seed of `derive_identity`, for every login and
  with the same refusals; `saltInput_injective` that two logins never share a salt unless their
  normalized names are the same.
-/
import Mathlib.Algebra.Order.Ring.Nat
import Mathlib.Tactic.Common
import My98.Crypto.Plain

namespace My98.Crypto

open My98.Lib

variable {P : Primitives}

/-! ## §1. The script. -/

/-- `text.encode("utf-8")`. -/
def utf8Bytes (text : String) : Bytes := text.toUTF8.data.toList

/-- `hmac.new(key, msg, sha256).digest()`. -/
abbrev Hmac := (key msg : Bytes) → Block 32

/-- `struct.pack("<I", len(field)) + field`. -/
def packed (field : Bytes) : Bytes := leBytes 4 field.length ++ field

/-- Empty, or longer than a credential may be. -/
def badCredential (field : String) : Bool := field.isEmpty || decide (4096 < (utf8Bytes field).length)

/-- `framed`, of the normalized names. -/
def framed (username machine : Bytes) : Bytes :=
  [username, machine].foldl (fun acc field => acc ++ packed field) (ascii "slop86/identity/v2\x00")

/-- The arguments of `hash_secret_raw`. -/
def secretParams : Argon2Params where
  timeCost := 3
  memoryCost := 65536
  parallelism := 4
  length := 32
  algorithm := .argon2id
  version := 19

def deriveSeed (P : Primitives) (hmac : Hmac) (username password machine : String) :
    Except String (Block 32) :=
  if [username, password, machine].any badCredential then
    .error "Credentials must contain between 1 and 4096 UTF-8 bytes"
  else
    let username := utf8Bytes (P.nfc username)
    let machine := utf8Bytes (P.nfc machine)
    if 4096 < username.length ∨ 4096 < machine.length then
      .error "Normalized credential exceeds 4096 UTF-8 bytes"
    else
      let salt := slice (P.sha256 (framed username machine)) 0 16
      match P.argon2 secretParams (utf8Bytes password) salt with
      | none => .error "HashingError"
      | some master =>
        let prk := hmac (ascii "slop86/keys/v1") master.val
        .ok (hmac prk.val (ascii "slop86/signing/v1" ++ [1]))

/-! ## §2. The two derivations are one. -/

theorem length_utf8Bytes (text : String) : (utf8Bytes text).length = text.utf8ByteSize := by
  unfold utf8Bytes
  rw [Array.length_toList]
  rfl

/-- What both hash for the salt. -/
def saltInput (P : Primitives) (username machine : String) : Bytes :=
  ascii "slop86/identity/v2\x00" ++ saltField (P.nfc username) ++ saltField (P.nfc machine)

theorem packed_utf8 (text : String) : packed (utf8Bytes text) = saltField text := by
  unfold packed saltField
  rw [length_utf8Bytes]
  rfl

theorem framed_utf8 (P : Primitives) (username machine : String) :
    framed (utf8Bytes (P.nfc username)) (utf8Bytes (P.nfc machine)) = saltInput P username machine := by
  unfold framed saltInput
  rw [List.foldl_cons, List.foldl_cons, List.foldl_nil, packed_utf8, packed_utf8]

/-- A field ends where it says. -/
theorem saltField_append_inj {a b : String} {r r' : Bytes} (ha : a.utf8ByteSize < 2 ^ 32)
    (hb : b.utf8ByteSize < 2 ^ 32) (h : saltField a ++ r = saltField b ++ r') : a = b ∧ r = r' := by
  unfold saltField at h
  rw [List.append_assoc, List.append_assoc] at h
  obtain ⟨hsize, hrest⟩ := List.append_inj h (by simp)
  have hsize' : a.utf8ByteSize = b.utf8ByteSize := by
    rw [← leNat_leBytes 4 a.utf8ByteSize (by omega), hsize, leNat_leBytes 4 _ (by omega)]
  have hlen : (utf8Bytes a).length = (utf8Bytes b).length := by
    rw [length_utf8Bytes, length_utf8Bytes, hsize']
  obtain ⟨hbytes, hr⟩ := List.append_inj hrest hlen
  refine ⟨?_, hr⟩
  apply String.toByteArray_inj.mp
  apply ByteArray.ext
  exact Array.toList_inj.mp hbytes

/-- **Two logins share a salt input only when their normalized names agree.** -/
theorem saltInput_injective {u m u' m' : String} (hu : (P.nfc u).utf8ByteSize < 2 ^ 32)
    (hm : (P.nfc m).utf8ByteSize < 2 ^ 32) (hu' : (P.nfc u').utf8ByteSize < 2 ^ 32)
    (hm' : (P.nfc m').utf8ByteSize < 2 ^ 32) (h : saltInput P u m = saltInput P u' m') :
    P.nfc u = P.nfc u' ∧ P.nfc m = P.nfc m' := by
  unfold saltInput at h
  rw [List.append_assoc, List.append_assoc] at h
  obtain ⟨husers, hrest⟩ := saltField_append_inj hu hu' (List.append_cancel_left h)
  rw [← List.append_nil (saltField (P.nfc m)), ← List.append_nil (saltField (P.nfc m'))] at hrest
  exact ⟨husers, (saltField_append_inj hm hm' hrest).1⟩

/-- The refusals of the two programs are the same. -/
theorem badCredential_any (username password machine : String) :
    [username, password, machine].any badCredential = true ↔
      (username.isEmpty || (utf8Bytes password).isEmpty || machine.isEmpty) = true ∨
        (4096 < username.utf8ByteSize ∨ 4096 < (utf8Bytes password).length ∨
          4096 < machine.utf8ByteSize) := by
  have hempty : (utf8Bytes password).isEmpty = password.isEmpty := by
    rw [Bool.eq_iff_iff, List.isEmpty_iff_length_eq_zero, length_utf8Bytes]
    simp [String.isEmpty]
  simp only [List.any_cons, List.any_nil, Bool.or_false, badCredential, length_utf8Bytes, hempty,
    Bool.or_eq_true, decide_eq_true_eq]
  constructor
  · rintro ((h | h) | (h | h) | (h | h))
    · exact .inl (.inl (.inl h))
    · exact .inr (.inl h)
    · exact .inl (.inl (.inr h))
    · exact .inr (.inr (.inl h))
    · exact .inl (.inr h)
    · exact .inr (.inr (.inr h))
  · rintro (((h | h) | h) | h | h | h)
    · exact .inl (.inl h)
    · exact .inr (.inl (.inl h))
    · exact .inr (.inr (.inl h))
    · exact .inl (.inr h)
    · exact .inr (.inl (.inr h))
    · exact .inr (.inr (.inr h))

/-- HKDF-SHA256 with 32 bytes of output: extract, and one block of expand. -/
def Hkdf (P : Primitives) (hmac : Hmac) : Prop :=
  ∀ ikm salt label, P.expand ikm salt label = hmac (hmac salt ikm).val (label ++ [1])

/-- The seed of the crate and the seed of the script. -/
theorem deriveSeed_eq {hmac : Hmac} (hkdf : Hkdf P hmac) (username password machine : String) :
    (deriveSeed P hmac username password machine).toOption =
      (deriveIdentity P username (utf8Bytes password) machine).toOption.map (·.signingSeed) := by
  unfold deriveSeed deriveIdentity
  by_cases hbad : [username, password, machine].any badCredential = true
  · rw [if_pos hbad]
    rcases (badCredential_any username password machine).mp hbad with hempty | hlong
    · rw [if_pos hempty]
      rfl
    · split
      · rfl
      · rfl
  · have hgood := mt (badCredential_any username password machine).mpr hbad
    rw [not_or] at hgood
    rw [if_neg hbad, if_neg hgood.1, if_neg hgood.2]
    dsimp only
    rw [length_utf8Bytes, length_utf8Bytes, framed_utf8]
    by_cases hlong : 4096 < (P.nfc username).utf8ByteSize ∨ 4096 < (P.nfc machine).utf8ByteSize
    · rw [if_pos hlong, if_pos hlong]
      rfl
    · rw [if_neg hlong, if_neg hlong]
      -- the script and the crate ask for one and the same hash
      unfold saltInput secretParams argon2Params
      generalize P.argon2 _ (utf8Bytes password) _ = answer
      cases answer with
      | none => rfl
      | some master =>
        exact congrArg some (hkdf master.val _ _).symm

/-- **One login, one identity, in both languages.** -/
theorem derive_agrees {hmac : Hmac} (hkdf : Hkdf P hmac) :
    (∀ username password machine : String,
      (deriveSeed P hmac username password machine).toOption =
        (deriveIdentity P username (utf8Bytes password) machine).toOption.map (·.signingSeed)) ∧
    (∀ u m : String, framed (utf8Bytes (P.nfc u)) (utf8Bytes (P.nfc m)) = saltInput P u m) ∧
    ∀ u m u' m' : String, (P.nfc u).utf8ByteSize < 2 ^ 32 → (P.nfc m).utf8ByteSize < 2 ^ 32 →
      (P.nfc u').utf8ByteSize < 2 ^ 32 → (P.nfc m').utf8ByteSize < 2 ^ 32 →
      saltInput P u m = saltInput P u' m' → P.nfc u = P.nfc u' ∧ P.nfc m = P.nfc m' :=
  ⟨deriveSeed_eq hkdf, framed_utf8 P, fun _ _ _ _ => saltInput_injective⟩

/-- The first `n` bytes, with zeros behind them. -/
def padded (n : Nat) (b : Bytes) : Block n :=
  ⟨(b ++ List.replicate n 0).take n, by
    rw [List.length_take, List.length_append, List.length_replicate]
    omega⟩

/-- Stand-ins that depend on all they are given. -/
def demoHmac (key msg : Bytes) : Block 32 := padded 32 (msg ++ key)

def demoLogin : Primitives :=
  { plain with
    expand := fun ikm salt label => demoHmac (demoHmac salt ikm).val (label ++ [1])
    argon2 := fun params password salt => some (padded params.length (password ++ salt)) }

/-- One login derived twice, and a login with another password. -/
theorem derive_agrees_demo :
    (deriveSeed demoLogin demoHmac "u" "p" "m").toOption.isSome = true ∧
      (deriveIdentity demoLogin "u" (utf8Bytes "p") "m").toOption.map (·.signingSeed) =
        (deriveSeed demoLogin demoHmac "u" "p" "m").toOption ∧
      (deriveSeed demoLogin demoHmac "u" "p" "m").toOption ≠
        (deriveSeed demoLogin demoHmac "u" "q" "m").toOption := by
  have hkdf : Hkdf demoLogin demoHmac := fun _ _ _ => rfl
  exact ⟨by decide +kernel, ((derive_agrees hkdf).1 "u" "p" "m").symm, by decide +kernel⟩

end My98.Crypto
