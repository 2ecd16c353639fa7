/-
  My98.Relay.Challenge — what a relay key signs to prove itself
  (`src/crypto/src/lib.rs`: `relay_public_key`, `sign_relay_challenge`, `relay_challenge`).

  The signed message frames five fields, each with its length in front, behind a domain of its own.

    • `relayChallenge_injective` — one message is the challenge of one key, service, origin, nonce
      and expiry.
-/
import Mathlib.Algebra.Order.Ring.Nat
import Mathlib.Tactic.Common
import My98.Crypto.Identity
import My98.Lib.Text

namespace My98.Relay

open My98.Lib My98.Crypto

/-! ## §1. The code. -/

/-- The `k` low bytes of `n`, most significant first. -/
def beBytes (k n : Nat) : Bytes := (leBytes k n).reverse

/-- `(field.len() as u32).to_be_bytes()` and the field. -/
def lengthPrefixed (field : Bytes) : Bytes := beBytes 4 field.length ++ field

def challengeDomain : Bytes := ascii "my98/relay-challenge/v1\x00"

/-- `text.starts_with(start)`. -/
def startsWith (text start : String) : Bool := (encodeText start).isPrefixOf (encodeText text)

/-- `expires` is below `2 ^ 64`. -/
def relayChallenge (publicKey : Bytes) (url origin : String) (nonce : Bytes) (expires : Nat) :
    Except String Bytes :=
  if publicKey.length ≠ 32 ∨ nonce.length ≠ 32 ∨ 2048 < (encodeText url).length ∨
      2048 < (encodeText origin).length ∨ startsWith url "wss://" = false ∨
      (startsWith origin "https://" = false ∧ startsWith origin "http://" = false) then
    .error "Invalid relay challenge"
  else
    .ok ([publicKey, encodeText url, encodeText origin, nonce, beBytes 8 expires].foldl
      (fun bytes field => bytes ++ lengthPrefixed field) challengeDomain)

variable {P : Primitives}

def relayPublicKey (id : Identity P) : Except String Bytes := do
  id.check
  pure (P.verifyingKey id.relaySeed).val

/-- A relay key can only sign this versioned authentication domain. -/
def signRelayChallenge (id : Identity P) (url origin : String) (nonce : Bytes) (expires : Nat) :
    Except String Bytes := do
  id.check
  let publicKey ← relayPublicKey id
  let message ← relayChallenge publicKey url origin nonce expires
  pure (P.sign id.relaySeed message).val

/-! ## §2. One message, one challenge. -/

theorem beBytes_injective {k a b : Nat} (ha : a < 256 ^ k) (hb : b < 256 ^ k)
    (h : beBytes k a = beBytes k b) : a = b := by
  have hle := List.reverse_inj.mp h
  rw [← leNat_leBytes k a ha, hle, leNat_leBytes k b hb]

/-- A field ends where its length says. -/
theorem lengthPrefixed_append {a b x y : Bytes} (ha : a.length < 2 ^ 32) (hb : b.length < 2 ^ 32)
    (h : lengthPrefixed a ++ x = lengthPrefixed b ++ y) : a = b ∧ x = y := by
  unfold lengthPrefixed at h
  rw [List.append_assoc, List.append_assoc] at h
  have hwidth : (beBytes 4 a.length).length = (beBytes 4 b.length).length := by
    simp [beBytes]
  obtain ⟨hlen, hrest⟩ := List.append_inj h hwidth
  exact List.append_inj hrest (beBytes_injective ha hb hlen)

theorem relayChallenge_ok {publicKey nonce message : Bytes} {url origin : String} {expires : Nat}
    (h : relayChallenge publicKey url origin nonce expires = .ok message) :
    publicKey.length = 32 ∧ nonce.length = 32 ∧ (encodeText url).length ≤ 2048 ∧
      (encodeText origin).length ≤ 2048 ∧
      message = challengeDomain ++ (lengthPrefixed publicKey ++ (lengthPrefixed (encodeText url) ++
        (lengthPrefixed (encodeText origin) ++ (lengthPrefixed nonce ++
          (lengthPrefixed (beBytes 8 expires) ++ []))))) := by
  unfold relayChallenge at h
  split at h
  · cases h
  next hvalid =>
    simp only [not_or, not_not, not_lt] at hvalid
    injection h with h
    refine ⟨hvalid.1, hvalid.2.1, hvalid.2.2.1, hvalid.2.2.2.1, h.symm.trans ?_⟩
    simp only [List.foldl_cons, List.foldl_nil, List.append_assoc, List.append_nil]

/-- **A challenge says whose it is**: the arguments that are accepted can be read off the message. -/
theorem relayChallenge_injective {publicKey publicKey' nonce nonce' message : Bytes}
    {url url' origin origin' : String} {expires expires' : Nat} (he : expires < 2 ^ 64)
    (he' : expires' < 2 ^ 64) (h : relayChallenge publicKey url origin nonce expires = .ok message)
    (h' : relayChallenge publicKey' url' origin' nonce' expires' = .ok message) :
    publicKey = publicKey' ∧ url = url' ∧ origin = origin' ∧ nonce = nonce' ∧ expires = expires' := by
  obtain ⟨hpublic, hnonce, hurl, horigin, hmessage⟩ := relayChallenge_ok h
  obtain ⟨hpublic', hnonce', hurl', horigin', hmessage'⟩ := relayChallenge_ok h'
  have hfields := List.append_cancel_left (hmessage.symm.trans hmessage')
  obtain ⟨hp, hfields⟩ := lengthPrefixed_append (by omega) (by omega) hfields
  obtain ⟨hu, hfields⟩ := lengthPrefixed_append (by omega) (by omega) hfields
  obtain ⟨ho, hfields⟩ := lengthPrefixed_append (by omega) (by omega) hfields
  obtain ⟨hn, hfields⟩ := lengthPrefixed_append (by omega) (by omega) hfields
  have hlen : ∀ n, (beBytes 8 n).length < 2 ^ 32 := by
    intro n
    rw [beBytes, List.length_reverse, length_leBytes]
    decide
  obtain ⟨hexpires, -⟩ := lengthPrefixed_append (hlen expires) (hlen expires') hfields
  exact ⟨hp, encodeText_injective hu, encodeText_injective ho, hn,
    beBytes_injective (by simpa using he) (by simpa using he') hexpires⟩

end My98.Relay
