/-
  My98.Crypto.Exactness — `unseal` accepts what `seal_with_salt` writes, and nothing else.

  The parser takes the salt, the kind and the length from the envelope itself.  Each of the 46
  bytes of the header is either one fixed value or the salt, so the header is that of an encoder
  that was given the same salt; and the whole of it is associated data on both sides.  What is
  asked of the cipher is `Primitives.Aead`, and every keystream with every tag (`maskThenMac`)
  has it.

    • `slice_header`     — the header of an envelope that passes the checks;
    • `unsealEnvelope_ok` — an accepted envelope was sealed with the salt that it carries;
    • `header_bound`     — what is left of the check when the header is another one;
    • `envelope_exact`   — the image of the encoder, exactly.
-/
import Mathlib
import My98.Crypto.Plain
import My98.Disk.Header

namespace My98.Crypto

open My98.Lib

/-! ## §1. The cipher. -/

/-- What is promised of an AEAD cipher: it opens the encryptions of a message, no others, and the
    tag has 16 bytes. -/
structure Primitives.Aead (P : Primitives) : Prop where
  decrypt_iff : ∀ key nonce aad msg c,
    P.decrypt key nonce aad c = some msg ↔ P.encrypt key nonce aad msg = some c
  length_encrypt : ∀ key nonce aad msg c,
    P.encrypt key nonce aad msg = some c → c.length = msg.length + TAG

/-- `bytes` under a keystream. -/
def masked (stream : Nat → UInt8) (bytes : Bytes) : Bytes := bytes.mapIdx fun i b => b ^^^ stream i

theorem length_masked (stream : Nat → UInt8) (bytes : Bytes) :
    (masked stream bytes).length = bytes.length := by
  unfold masked
  rw [List.length_mapIdx]

/-- Masking twice is not masking. -/
theorem masked_masked (stream : Nat → UInt8) (bytes : Bytes) :
    masked stream (masked stream bytes) = bytes := by
  refine List.ext_getElem? fun i => ?_
  unfold masked
  rw [List.getElem?_mapIdx, List.getElem?_mapIdx, Option.map_map]
  cases bytes[i]? with
  | none => rfl
  | some b =>
    show some ((b ^^^ stream i) ^^^ stream i) = some b
    rw [UInt8.xor_assoc, UInt8.xor_self, UInt8.xor_zero]

/-- A keystream, and a tag over the associated data and the ciphertext. -/
def maskThenMac (stream : Block 32 → Block 12 → Nat → UInt8)
    (mac : Block 32 → Block 12 → Bytes → Bytes → Block 16) : Primitives :=
  { plain with
    encrypt := fun key nonce aad msg =>
      let text := masked (stream key nonce) msg
      some (text ++ (mac key nonce aad text).val)
    decrypt := fun key nonce aad c =>
      let text := c.take (c.length - TAG)
      if c = text ++ (mac key nonce aad text).val then some (masked (stream key nonce) text)
      else none }

theorem maskThenMac_aead (stream : Block 32 → Block 12 → Nat → UInt8)
    (mac : Block 32 → Block 12 → Bytes → Bytes → Block 16) : (maskThenMac stream mac).Aead where
  length_encrypt := by
    intro key nonce aad msg c h
    obtain rfl := Option.some.inj h
    rw [List.length_append, length_masked, (mac key nonce aad _).property]
    rfl
  decrypt_iff := by
    intro key nonce aad msg c
    constructor
    · intro h
      dsimp only [maskThenMac] at h ⊢
      split at h
      next htag =>
        obtain rfl := Option.some.inj h
        rw [masked_masked]
        exact congrArg some htag.symm
      · cases h
    · intro h
      obtain rfl := Option.some.inj h
      generalize htext : masked (stream key nonce) msg = text
      have hlength := (mac key nonce aad text).property
      have htake : (text ++ (mac key nonce aad text).val).take
          ((text ++ (mac key nonce aad text).val).length - TAG) = text := by
        rw [List.length_append, hlength]
        exact List.take_left' (by simp only [TAG]; omega)
      dsimp only [maskThenMac]
      rw [htake, if_pos rfl, ← htext, masked_masked]

/-! ## §2. The header. -/

variable {P : Primitives} {key : Block 32} {kind : Kind} {nonce : Block 12} {context : Bytes}

/-- Where the four fields of the header stand. -/
theorem slice_fields (e : Bytes) : slice e 0 46 =
    slice e 0 4 ++ (slice e 4 1 ++ slice e 5 1) ++ slice e 6 32 ++ slice e 38 8 := by
  rw [slice_append_slice, slice_append_slice, slice_append_slice, slice_append_slice]

theorem slice_one {e : Bytes} {i : Nat} {b : UInt8} (h : e[i]? = some b) : slice e i 1 = [b] := by
  obtain ⟨hi, rfl⟩ := List.getElem?_eq_some_iff.mp h
  unfold slice
  rw [List.drop_eq_getElem_cons hi, List.take_succ_cons, List.take_zero]

theorem length_salt {e : Bytes} (h : HEADER + TAG ≤ e.length) : (slice e 6 32).length = 32 := by
  simp only [HEADER, TAG] at h
  exact length_slice_of_le (by omega)

/-- The salt that an envelope carries. -/
def saltOf (e : Bytes) (h : HEADER + TAG ≤ e.length) : Block 32 := ⟨slice e 6 32, length_salt h⟩

/-- **The header of an envelope that passes the checks.** -/
theorem slice_header {e : Bytes} {n : Nat} (hlength : HEADER + TAG ≤ e.length)
    (hmagic : slice e 0 4 = PREFIX) (hversion : e[4]? = some 1) (hkind : e[5]? = some kind.code)
    (hn : leNat (slice e 38 8) = n) : slice e 0 HEADER = envelopeHeader kind (saltOf e hlength) n := by
  have height : (slice e 38 8).length = 8 :=
    length_slice_of_le (by simp only [HEADER, TAG] at hlength; omega)
  have hfield : slice e 38 8 = leBytes 8 n := by
    have hread := leBytes_leNat (slice e 38 8)
    rw [height, hn] at hread
    exact hread.symm
  have hfields := slice_fields e
  rw [hmagic, slice_one hversion, slice_one hkind, hfield] at hfields
  exact hfields

/-- A header tells its salt. -/
theorem envelopeHeader_salt {salt salt' : Block 32} {n n' : Nat}
    (h : envelopeHeader kind salt n = envelopeHeader kind salt' n') : salt = salt' := by
  have hpair := List.append_inj_left' h (by rw [length_leBytes, length_leBytes])
  exact Block.ext (List.append_cancel_left hpair)

/-! ## §3. What is accepted. -/

/-- `seal_with_salt`, when the message is not too long. -/
theorem sealWithSalt_iff {bytes e : Bytes} {salt : Block 32} (hsize : bytes.length ≤ MAX_UNIT_BYTES) :
    sealWithSalt P key kind nonce context bytes salt = .ok e ↔
      ∃ c, P.encrypt (P.expand key.val salt.val kind.label) nonce
          (envelopeHeader kind salt bytes.length ++ context) bytes = some c ∧
        e = envelopeHeader kind salt bytes.length ++ c := by
  unfold sealWithSalt
  rw [if_neg (Nat.not_lt.mpr hsize)]
  dsimp only
  cases P.encrypt (P.expand key.val salt.val kind.label) nonce
    (envelopeHeader kind salt bytes.length ++ context) bytes with
  | none =>
    constructor
    · intro h
      cases h
    · rintro ⟨c, hc, -⟩
      cases hc
  | some c =>
    constructor
    · intro h
      exact ⟨c, rfl, (Except.ok.inj h).symm⟩
    · rintro ⟨c', hc, rfl⟩
      rw [Option.some.inj hc]

/-- The checks of `unseal`, before the cipher. -/
structure WellFormed (kind : Kind) (e : Bytes) : Prop where
  least : HEADER + TAG ≤ e.length
  most : e.length ≤ HEADER + TAG + MAX_UNIT_BYTES
  magic : slice e 0 4 = PREFIX
  version : e[4]? = some 1
  kind : e[5]? = some kind.code
  length : leNat (slice e 38 8) = e.length - HEADER - TAG

/-- What the cipher is asked, for the envelope as it stands. -/
def opened (P : Primitives) (key : Block 32) (kind : Kind) (nonce : Block 12)
    (context e : Bytes) : Option Bytes :=
  P.decrypt (P.expand key.val (slice e 6 32) kind.label) nonce (slice e 0 HEADER ++ context)
    (e.drop HEADER)

/-- **`unseal`**: the checks, and then the cipher. -/
theorem unsealEnvelope_iff {e m : Bytes} : unsealEnvelope P key kind nonce context e = .ok m ↔
    WellFormed kind e ∧ opened P key kind nonce context e = some m := by
  unfold unsealEnvelope
  constructor
  · intro h
    split at h
    · cases h
    next hsize =>
      split at h
      · cases h
      next hfields =>
        split at h
        · cases h
        next hlength =>
          rw [not_or] at hsize
          rw [not_or, not_or] at hfields
          refine ⟨⟨Nat.not_lt.mp hsize.1, Nat.not_lt.mp hsize.2, not_not.mp hfields.1,
            not_not.mp hfields.2.1, not_not.mp hfields.2.2, not_not.mp hlength⟩, ?_⟩
          unfold opened
          dsimp only at h
          split at h
          · cases h
          next m' hm => rw [hm, Except.ok.inj h]
  · rintro ⟨hwell, hopened⟩
    unfold opened at hopened
    rw [if_neg (not_or.mpr ⟨Nat.not_lt.mpr hwell.least, Nat.not_lt.mpr hwell.most⟩),
      if_neg (not_or.mpr ⟨not_not.mpr hwell.magic,
        not_or.mpr ⟨not_not.mpr hwell.version, not_not.mpr hwell.kind⟩⟩),
      if_neg (not_not.mpr hwell.length)]
    dsimp only
    rw [hopened]

/-- The ciphertext of an accepted envelope has the length that the header tells. -/
theorem WellFormed.length_eq (hP : P.Aead) {e m : Bytes} (h : WellFormed kind e)
    (hm : opened P key kind nonce context e = some m) : e.length = m.length + (HEADER + TAG) := by
  have hcipher := hP.length_encrypt _ _ _ _ _ ((hP.decrypt_iff _ _ _ _ _).mp hm)
  have hleast := h.least
  rw [List.length_drop] at hcipher
  omega

/-- **An accepted envelope was sealed with the salt that it carries.** -/
theorem unsealEnvelope_ok (hP : P.Aead) {e m : Bytes}
    (h : unsealEnvelope P key kind nonce context e = .ok m) :
    m.length ≤ MAX_UNIT_BYTES ∧ ∃ hlength : HEADER + TAG ≤ e.length,
      sealWithSalt P key kind nonce context m (saltOf e hlength) = .ok e := by
  obtain ⟨hwell, hopened⟩ := unsealEnvelope_iff.mp h
  have hlength := hwell.length_eq hP hopened
  have hmost := hwell.most
  have hsize : m.length ≤ MAX_UNIT_BYTES := by omega
  have hfield : leNat (slice e 38 8) = m.length := by
    rw [hwell.length]
    omega
  have hheader := slice_header hwell.least hwell.magic hwell.version hwell.kind hfield
  refine ⟨hsize, hwell.least, (sealWithSalt_iff hsize).mpr ⟨e.drop HEADER, ?_, ?_⟩⟩
  · rw [← hheader]
    exact (hP.decrypt_iff _ _ _ _ _).mp hopened
  · rw [← hheader]
    exact (List.take_append_drop HEADER e).symm

/-- The same cipher with signatures that are not checked: an envelope has none. -/
def Primitives.unsigned (P : Primitives) : Primitives :=
  { P with validKey := fun _ => true, verifyStrict := fun _ _ _ => true }

theorem Primitives.Aead.sound (hP : P.Aead) : P.unsigned.Sound where
  decrypt_encrypt := fun {_ _ _ _ _} h => (hP.decrypt_iff _ _ _ _ _).mpr h
  length_encrypt := fun {_ _ _ _ _} h => hP.length_encrypt _ _ _ _ _ h
  verify_sign := fun _ _ => rfl
  valid_verifyingKey := fun _ => rfl

theorem unsealEnvelope_of_seal (hP : P.Aead) {m e : Bytes} {salt : Block 32}
    (h : sealWithSalt P key kind nonce context m salt = .ok e) :
    unsealEnvelope P key kind nonce context e = .ok m := by
  have hsealed : sealWithSalt P.unsigned key kind nonce context m salt = .ok e := h
  exact unsealEnvelope_sealWithSalt hP.sound hsealed

/-- Two salts do not give one envelope. -/
theorem sealWithSalt_salt {m m' e : Bytes} {salt salt' : Block 32}
    (h : sealWithSalt P key kind nonce context m salt = .ok e)
    (h' : sealWithSalt P key kind nonce context m' salt' = .ok e) : salt = salt' := by
  obtain ⟨c, -, he⟩ := (sealWithSalt_iff (sealWithSalt_bound h)).mp h
  obtain ⟨c', -, he'⟩ := (sealWithSalt_iff (sealWithSalt_bound h')).mp h'
  have hlength : (envelopeHeader kind salt m.length).length =
      (envelopeHeader kind salt' m'.length).length := by
    rw [length_envelopeHeader, length_envelopeHeader]
  exact envelopeHeader_salt (List.append_inj_left (he.symm.trans he') hlength)

/-- Every refusal reads the same. -/
theorem unsealEnvelope_error {e : Bytes} {code : String}
    (h : unsealEnvelope P key kind nonce context e = .error code) : code = AUTH := by
  unfold unsealEnvelope at h
  split at h
  · exact (Except.error.inj h).symm
  · split at h
    · exact (Except.error.inj h).symm
    · split at h
      · exact (Except.error.inj h).symm
      · dsimp only at h
        split at h
        · exact (Except.error.inj h).symm
        · cases h

/-! ## §4. The header is bound. -/

/-- `e'` has another byte than `e` in its header, and not in the salt. -/
def OutsideSalt (e e' : Bytes) : Prop := ∃ i, (i < 6 ∨ 38 ≤ i ∧ i < HEADER) ∧ e[i]? ≠ e'[i]?

theorem slice_congr {e e' : Bytes} {off n : Nat} (h : ∀ i, off ≤ i → i < off + n → e[i]? = e'[i]?) :
    slice e off n = slice e' off n := by
  refine List.ext_getElem? fun i => ?_
  rw [getElem?_slice, getElem?_slice]
  split
  next hi => exact h (off + i) (Nat.le_add_right off i) (by omega)
  · rfl

theorem getElem?_of_slice {e e' : Bytes} {off n i : Nat} (h : slice e off n = slice e' off n)
    (hlow : off ≤ i) (hhigh : i < off + n) : e[i]? = e'[i]? := by
  have hat : (slice e off n)[i - off]? = (slice e' off n)[i - off]? := by rw [h]
  rw [getElem?_slice, getElem?_slice, if_pos (by omega), if_pos (by omega)] at hat
  rwa [show off + (i - off) = i by omega] at hat

/-- Two envelopes of one length that pass the checks differ in nothing but the salt. -/
theorem WellFormed.inside {e e' : Bytes} (h : WellFormed kind e) (h' : WellFormed kind e')
    (hlength : e'.length = e.length) : ¬ OutsideSalt e e' := by
  rintro ⟨i, hi, hne⟩
  refine hne ?_
  rcases hi with hi | ⟨hlow, hhigh⟩
  · by_cases hfour : i < 4
    · exact getElem?_of_slice (h.magic.trans h'.magic.symm) (Nat.zero_le i) (by omega)
    · obtain rfl | rfl : i = 4 ∨ i = 5 := by omega
      · rw [h.version, h'.version]
      · rw [h.kind, h'.kind]
  · have hleast := h.least
    simp only [HEADER, TAG] at hhigh hleast
    have hnum : leNat (slice e 38 8) = leNat (slice e' 38 8) := by
      rw [h.length, h'.length, hlength]
    have height : (slice e 38 8).length = 8 := length_slice_of_le (by omega)
    have height' : (slice e' 38 8).length = 8 := length_slice_of_le (by omega)
    have hfield : slice e 38 8 = slice e' 38 8 := by
      rw [← leBytes_leNat (slice e 38 8), ← leBytes_leNat (slice e' 38 8), hnum, height, height']
    exact getElem?_of_slice hfield hlow (by omega)

/-- Another salt passes the checks as well. -/
theorem WellFormed.salted {e e' : Bytes} (h : WellFormed kind e) (hlength : e'.length = e.length)
    (hsame : ¬ OutsideSalt e e') : WellFormed kind e' := by
  have hat : ∀ i, i < 6 ∨ 38 ≤ i ∧ i < HEADER → e'[i]? = e[i]? := by
    intro i hi
    by_contra hne
    exact hsame ⟨i, hi, fun heq => hne heq.symm⟩
  have hfirst : slice e' 0 4 = slice e 0 4 := slice_congr fun i _ hi => hat i (Or.inl (by omega))
  have hlast : slice e' 38 8 = slice e 38 8 :=
    slice_congr fun i hlow hhigh => hat i (Or.inr ⟨hlow, hhigh⟩)
  refine ⟨?_, ?_, ?_, ?_, ?_, ?_⟩
  · rw [hlength]
    exact h.least
  · rw [hlength]
    exact h.most
  · rw [hfirst]
    exact h.magic
  · rw [hat 4 (Or.inl (by omega))]
    exact h.version
  · rw [hat 5 (Or.inl (by omega))]
    exact h.kind
  · rw [hlast, hlength]
    exact h.length

/-- **Every bit of the header is bound.**  Change the header of an accepted envelope in any way.
    The result is accepted as `m'` just when nothing but the salt was changed and the same
    ciphertext is what the cipher makes of `m'` under the subkey of the changed salt, with the
    changed header as associated data. -/
theorem header_bound (hP : P.Aead) {e e' m : Bytes}
    (h : unsealEnvelope P key kind nonce context e = .ok m) (hbody : e'.drop HEADER = e.drop HEADER)
    (m' : Bytes) : unsealEnvelope P key kind nonce context e' = .ok m' ↔ ¬ OutsideSalt e e' ∧
      P.encrypt (P.expand key.val (slice e' 6 32) kind.label) nonce (slice e' 0 HEADER ++ context) m' =
        some (e.drop HEADER) := by
  obtain ⟨hwell, -⟩ := unsealEnvelope_iff.mp h
  have hlength : e'.length = e.length := by
    have hleast := hwell.least
    have heq := congrArg List.length hbody
    rw [List.length_drop, List.length_drop] at heq
    simp only [HEADER, TAG] at hleast heq
    omega
  rw [unsealEnvelope_iff, ← hbody, ← hP.decrypt_iff]
  constructor
  · rintro ⟨hwell', hopened⟩
    exact ⟨hwell.inside hwell' hlength, hopened⟩
  · rintro ⟨hsame, hopened⟩
    exact ⟨hwell.salted hlength hsame, hopened⟩

/-! ## §5. The image of the encoder. -/

/-- **The envelopes are exactly what `seal_with_salt` writes.** -/
theorem envelope_exact (hP : P.Aead) (key : Block 32) (kind : Kind) (nonce : Block 12)
    (context : Bytes) :
    (∀ e m, unsealEnvelope P key kind nonce context e = .ok m ↔
      m.length ≤ MAX_UNIT_BYTES ∧ ∃! salt, sealWithSalt P key kind nonce context m salt = .ok e) ∧
    (∀ e m salt, sealWithSalt P key kind nonce context m salt = .ok e →
      slice e 0 HEADER = envelopeHeader kind salt m.length ∧ leNat (slice e 38 8) = m.length ∧
        e.length = m.length + Disk.OVERHEAD) ∧
    (∀ e e' m m', unsealEnvelope P key kind nonce context e = .ok m →
      e'.drop HEADER = e.drop HEADER →
      (unsealEnvelope P key kind nonce context e' = .ok m' ↔ ¬ OutsideSalt e e' ∧
        P.encrypt (P.expand key.val (slice e' 6 32) kind.label) nonce (slice e' 0 HEADER ++ context)
          m' = some (e.drop HEADER))) ∧
    ∀ e code, unsealEnvelope P key kind nonce context e = .error code → code = AUTH := by
  refine ⟨fun e m => ⟨fun h => ?_, ?_⟩, fun e m salt h => ?_,
    fun e e' m m' h hbody => header_bound hP h hbody m', fun e code h => unsealEnvelope_error h⟩
  · obtain ⟨hsize, hleast, hseal⟩ := unsealEnvelope_ok hP h
    exact ⟨hsize, saltOf e hleast, hseal, fun salt hsalt => sealWithSalt_salt hsalt hseal⟩
  · rintro ⟨-, salt, hseal, -⟩
    exact unsealEnvelope_of_seal hP hseal
  · have hopened := unsealEnvelope_of_seal hP h
    obtain ⟨hwell, hm⟩ := unsealEnvelope_iff.mp hopened
    have hlength := hwell.length_eq hP hm
    have hfield : leNat (slice e 38 8) = m.length := by
      rw [hwell.length]
      omega
    have hheader := slice_header hwell.least hwell.magic hwell.version hwell.kind hfield
    obtain ⟨-, hleast, hseal⟩ := unsealEnvelope_ok hP hopened
    rw [sealWithSalt_salt h hseal]
    exact ⟨hheader, hfield, hlength⟩

/-- A keystream of one byte, and the sum of all bytes for a tag. -/
def demoCipher : Primitives :=
  maskThenMac (fun key nonce i => UInt8.ofNat (i + key.val.length + nonce.val.length))
    fun key _ aad text => ⟨List.replicate 15 7 ++ [(key.val ++ aad ++ text).sum], by
      rw [List.length_append, List.length_replicate, List.length_singleton]⟩

/-- What it makes of three bytes. -/
def demoEnvelope : Bytes :=
  PREFIX ++ [1, 2] ++ List.replicate 32 5 ++ [3, 0, 0, 0, 0, 0, 0, 0] ++ [45, 47, 45] ++
    List.replicate 15 7 ++ [(69 : UInt8)]

/-- Its envelope of three bytes was made with one salt. -/
theorem demo_envelope_exact : [1, 2, 3].length ≤ MAX_UNIT_BYTES ∧
    ∃! salt, sealWithSalt demoCipher (zeros 32) .data (zeros 12) [9] [1, 2, 3] salt =
      .ok demoEnvelope := by
  have hopened : unsealEnvelope demoCipher (zeros 32) .data (zeros 12) [9] demoEnvelope =
      .ok [1, 2, 3] := by decide +kernel
  exact ((envelope_exact (maskThenMac_aead _ _) (zeros 32) .data (zeros 12) [9]).1 _ _).mp hopened

end My98.Crypto
