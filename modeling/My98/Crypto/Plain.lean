/-
  My98.Crypto.Plain — primitives without secrecy.

  A cipher that appends an empty tag and a signature scheme that accepts everything are
  enough for `Primitives.Sound`: what the engine relies on is satisfiable, and the model can
  be RUN on concrete inputs.
-/
import My98.Crypto.Identity

namespace My98.Crypto

open My98.Lib

def zeros (n : Nat) : Block n := ⟨List.replicate n 0, by simp⟩

def plain : Primitives where
  expand := fun _ _ _ => zeros 32
  encrypt := fun _ _ _ msg => some (msg ++ List.replicate TAG 0)
  decrypt := fun _ _ _ c => if TAG ≤ c.length then some (c.take (c.length - TAG)) else none
  verifyingKey := fun _ => zeros 32
  sign := fun _ _ => zeros 64
  validKey := fun _ => true
  verifyStrict := fun _ _ _ => true
  sha256 := fun bytes => bytes.take 32
  argon2 := fun params _ _ => some (zeros params.length)
  nfc := fun s => s

theorem plain_sound : plain.Sound where
  decrypt_encrypt := by
    intro key nonce aad msg c h
    obtain rfl := Option.some.inj h
    show (if TAG ≤ (msg ++ List.replicate TAG 0).length then _ else _) = _
    rw [if_pos (by simp)]
    simp
  length_encrypt := by
    intro key nonce aad msg c h
    obtain rfl := Option.some.inj h
    simp [TAG]
  verify_sign := fun _ _ => rfl
  valid_verifyingKey := fun _ => rfl

end My98.Crypto
