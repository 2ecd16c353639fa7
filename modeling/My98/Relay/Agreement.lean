/-
  My98.Relay.Agreement — the two ends of the handshake together.

  The daemon builds the signed bytes from its configuration, the browser from what it dialled: they
  meet if the URL is written the way the browser's parser writes it, and if both are arguments that
  `relay_challenge` accepts.

    • `Genuine`          — a client that may connect, in time;
    • `Served`           — the arguments that can be signed at all;
    • `answer_accepted`  — the Worker signs the bytes the daemon verifies;
    • `honest_run`       — in every run, the client gets as far as its events, or meets a limit or
                           a revocation;
    • `handshake`        — with `Admitted` for every registration, the two directions.
-/
import Mathlib.Data.Finset.Basic
import Mathlib.Algebra.Order.Ring.Nat
import Mathlib.Tactic.Common
import My98.Crypto.Plain
import My98.Relay.Adapter
import My98.Relay.Authorization
import My98.Relay.Handshake

namespace My98.Relay

open My98.Lib My98.Crypto

/-! ## §1. An honest client. -/

/-- The checks of `main`. -/
def Config.valid (config : Config) : Bool :=
  startsWith config.publicUrl "wss://" &&
    (encodeText relayPath).isSuffixOf (encodeText config.publicUrl) &&
    decide (config.origins ≠ ∅)

/-- A clock in milliseconds, within a second of the daemon's while it waits for an answer to the
    challenge it made at second `asked`. -/
def Agrees (asked : Nat) (clock : Int) : Prop :=
  (1000 * asked : Int) ≤ clock + 1000 ∧ clock ≤ 1000 * (asked + 10) + 1000

/-- An unlocked identity, an origin that is listed, the public URL as the parser writes it, and
    messages in time.  `Date.now()` ends at 8.64e15. -/
structure Genuine (config : Config) (P : Primitives) (parse : String → Option Url)
    (client : Client P) (id : Identity P) (asked answered : Nat) (clock workerClock : Int) :
    Prop where
  sound : P.Sound
  valid : config.valid = true
  unlocked : client.identity = some id
  active : id.active = true
  dialled : client.url = config.publicUrl
  listed : client.origin ∈ config.origins
  canonical : ∃ url, parse config.publicUrl = some url ∧ url.href = config.publicUrl
  agrees : Agrees asked clock
  workerAgrees : Agrees asked workerClock
  date : clock ≤ 8640000000000000
  intime : answered < asked + 10

/-- What `relay_challenge` and the Worker sign: a `wss:` URL with nothing but host, port and path, an
    `http:` or `https:` origin, neither longer than 2048 bytes. -/
structure Served (config : Config) (parse : String → Option Url) (origin : String) : Prop where
  plain : ∀ url, parse config.publicUrl = some url → url.protocol = "wss:" ∧ url.username = "" ∧
    url.password = "" ∧ url.hash = "" ∧ url.search = ""
  web : startsWith origin "https://" = true ∨ startsWith origin "http://" = true
  shortUrl : (encodeText config.publicUrl).length ≤ 2048
  shortOrigin : (encodeText origin).length ≤ 2048

/-- The public key a client shows. -/
def Client.shown (id : Identity P) : Bytes := (P.verifyingKey id.relaySeed).val

section Client

variable {config : Config} {P : Primitives} {parse : String → Option Url} {client : Client P}
  {id : Identity P} {asked answered : Nat} {clock workerClock : Int}

theorem inWindow_of_agrees (h : Agrees asked clock) :
    inWindow ((asked + 10 : Nat) : Int) clock = true := by
  obtain ⟨hlow, hhigh⟩ := h
  simp only [inWindow, Bool.and_eq_true, decide_eq_true_eq]
  push_cast
  omega

/-- The bytes both ends compute. -/
theorem Genuine.bytes (h : Genuine config P parse client id asked answered clock workerClock)
    (hserved : Served config parse client.origin) (nonce : Block 32) :
    ∃ bytes, relayChallenge (Client.shown id) config.publicUrl client.origin nonce.val
      (asked + 10) = .ok bytes := by
  have hwss : startsWith config.publicUrl "wss://" = true := by
    have hvalid := h.valid
    simp only [Config.valid, Bool.and_eq_true] at hvalid
    exact hvalid.1.1
  have hkey : (Client.shown id).length = 32 := (P.verifyingKey id.relaySeed).property
  have hnonce := nonce.property
  have hurl := hserved.shortUrl
  have horigin := hserved.shortOrigin
  have hweb : ¬ (startsWith client.origin "https://" = false ∧
      startsWith client.origin "http://" = false) := by
    rintro ⟨hno, hno'⟩
    rcases hserved.web with hyes | hyes
    · rw [hno] at hyes
      cases hyes
    · rw [hno'] at hyes
      cases hyes
  unfold relayChallenge
  rw [if_neg]
  · exact ⟨_, rfl⟩
  · simp only [not_or, not_not, not_lt]
    exact ⟨hkey, hnonce, hurl, horigin, by rw [hwss]; decide, hweb⟩

/-- The adapter hands the challenge on. -/
theorem Genuine.signing (h : Genuine config P parse client id asked answered clock workerClock)
    (nonce : Block 32) :
    client.onMessage .hello (challengeMessage config client.origin nonce (asked + 10)) clock =
      (.signing, some ⟨config.publicUrl, client.origin, nonce.val, (asked + 10 : Nat)⟩) := by
  have hsafe : ((asked + 10 : Nat) : Int).natAbs < 2 ^ 53 := by
    have hlow := h.agrees.1
    have hdate := h.date
    rw [Int.natAbs_natCast]
    omega
  have hexpires : safeInteger ((challengeMessage config client.origin nonce (asked + 10)).get?
      "expires") = some ((asked + 10 : Nat) : Int) := if_pos hsafe
  have hnonce : (challengeMessage config client.origin nonce (asked + 10)).text? "nonce" =
      some (hex nonce.val) := rfl
  have hread := unhex_hex nonce.val
  rw [nonce.property] at hread
  unfold Client.onMessage
  rw [hexpires, hnonce, if_pos]
  · simp only [hread, h.dialled]
  · refine ⟨rfl, rfl, ?_, rfl, inWindow_of_agrees h.agrees⟩
    rw [h.dialled]
    rfl

/-- **The Worker signs the bytes the daemon verifies.** -/
theorem Genuine.signs (h : Genuine config P parse client id asked answered clock workerClock)
    (hserved : Served config parse client.origin) {nonce : Block 32} {bytes : Bytes}
    (hbytes : relayChallenge (Client.shown id) config.publicUrl client.origin nonce.val
      (asked + 10) = .ok bytes) :
    workerSign parse client.identity client.origin
        ⟨config.publicUrl, client.origin, nonce.val, (asked + 10 : Nat)⟩ workerClock =
      .ok (P.sign id.relaySeed bytes).val := by
  obtain ⟨url, hparse, hhref⟩ := h.canonical
  obtain ⟨hprotocol, husername, hpassword, hhash, hsearch⟩ := hserved.plain url hparse
  have hasked : asked + 10 < 2 ^ 53 := by
    have hlow := h.agrees.1
    have hdate := h.date
    omega
  have hcheck : id.check = .ok () := if_pos h.active
  have hexpires : (((asked + 10 : Nat) : Int) % 2 ^ 64).toNat = asked + 10 := by omega
  have hsigned : signRelayChallenge id config.publicUrl client.origin nonce.val (asked + 10) =
      .ok (P.sign id.relaySeed bytes).val := by
    have hpublic : relayPublicKey id = .ok (Client.shown id) := by
      unfold relayPublicKey
      rw [hcheck]
      rfl
    unfold signRelayChallenge
    rw [hcheck, hpublic]
    show (relayChallenge (Client.shown id) config.publicUrl client.origin nonce.val (asked + 10)
      >>= fun message => pure (P.sign id.relaySeed message).val) = _
    rw [hbytes]
    rfl
  unfold workerSign
  rw [h.unlocked]
  dsimp only
  rw [hparse]
  dsimp only
  rw [if_neg, hexpires, hhref]
  · exact hsigned
  · simp only [not_or, not_not]
    refine ⟨hprotocol, husername, hpassword, hhash, hsearch, trivial, ?_, ?_⟩
    · rw [Int.natAbs_natCast]
      exact hasked
    · rw [inWindow_of_agrees h.workerAgrees]
      decide

/-- **The daemon accepts the answer.** -/
theorem Genuine.accepted (h : Genuine config P parse client id asked answered clock workerClock)
    (hserved : Served config parse client.origin) (nonce : Block 32) :
    readAnswer P config (hex (Client.shown id)) client.origin nonce (asked + 10)
      (client.answer parse (challengeMessage config client.origin nonce (asked + 10)) clock
        workerClock) answered = .ok () := by
  obtain ⟨bytes, hbytes⟩ := h.bytes hserved nonce
  have hanswer : client.answer parse (challengeMessage config client.origin nonce (asked + 10))
      clock workerClock = some (.obj [("type", .str "authenticate"),
        ("signature", .str (hex (P.sign id.relaySeed bytes).val))]) := by
    unfold Client.answer
    rw [h.signing nonce]
    dsimp only
    rw [h.signs hserved hbytes]
  have hverify : verify P (Client.shown id) bytes (P.sign id.relaySeed bytes).val = true := by
    unfold verify Client.shown
    rw [dif_pos (P.verifyingKey id.relaySeed).property,
      dif_pos (P.sign id.relaySeed bytes).property, Bool.and_eq_true]
    exact ⟨h.sound.valid_verifyingKey id.relaySeed, h.sound.verify_sign id.relaySeed bytes⟩
  have hkey : key (hex (Client.shown id)) = .ok (Client.shown id) :=
    key_hex (P.verifyingKey id.relaySeed).property
  have hdecode : hexDecode (hex (P.sign id.relaySeed bytes).val) =
      some (P.sign id.relaySeed bytes).val := hexDecode_hex _
  rw [hanswer]
  unfold readAnswer
  dsimp only
  rw [if_neg]
  · have hsignature : (Json.obj [("type", .str "authenticate"),
        ("signature", .str (hex (P.sign id.relaySeed bytes).val))]).text? "signature" =
        some (hex (P.sign id.relaySeed bytes).val) := rfl
    simp only [hsignature, hdecode, hkey, hbytes, hverify, if_true]
  · rintro (htype | htime)
    · exact htype rfl
    · exact absurd h.intime (not_lt.mpr htime)

end Client

/-! ## §2. An honest connection. -/

/-- The events of the task of connection `c`, in their order. -/
def own (c : Nat) (events : List Event) : List Event :=
  events.filter fun e => decide (e.conn? = some c)

/-- What the task of connection `c` meets, up to `ready`, when an honest client is at the other
    end. -/
def script (config : Config) (parse : String → Option Url) (client : Client P) (id : Identity P)
    (c : Nat) (nonce : Block 32) (asked answered : Nat) (clock workerClock : Int) : List Event :=
  [.accept c,
    .upgrade c relayPath client.origin PROTOCOL,
    .hello c (some (helloMessage (Client.shown id))) nonce asked,
    .authenticate c
      (client.answer parse (challengeMessage config client.origin nonce (asked + 10)) clock
        workerClock) answered,
    .acquire c, .register c, .look c, .ready c]

/-- Where the connection stands after so many of these events. -/
def Stage (s : State) (c : Nat) (text origin : String) (nonce : Block 32) (asked : Nat) :
    Nat → Prop
  | 0 => s.conns c = .idle
  | 1 => s.conns c = .accepted
  | 2 => s.conns c = .upgraded origin
  | 3 => s.conns c = .challenged text origin nonce (asked + 10)
  | 4 => s.conns c = .authenticated text
  | 5 => s.conns c = .permitted text
  | 6 => ∃ id, s.conns c = .session text id .registered
  | 7 => ∃ id, s.conns c = .session text id .started
  | _ => (∃ id, s.conns c = .session text id .selecting) ∧ .ready c ∈ s.log

/-- A limit is reached, or the key is not in the allow set, or its session was cancelled. -/
structure Hindered (s : State) (c : Nat) (text : String) : Prop where
  obstacle : (s.conns c = .idle ∧ 32 ≤ s.handshakes.length) ∨
    (s.conns c = .authenticated text ∧ 4 ≤ s.sessions.length) ∨
    text ∉ s.allow ∨ ∃ id, s.conns c = .session text id .registered ∧ id ∈ s.cancelled

section Honest

variable {config : Config} {P : Primitives} {parse : String → Option Url} {client : Client P}
  {id : Identity P} {c asked answered : Nat} {clock workerClock : Int} {nonce : Block 32}
  {s s' : State}

theorem upgrade_accepted (h : client.origin ∈ config.origins) :
    upgradeAccepted config relayPath client.origin PROTOCOL = true := by
  have hoffered : (PROTOCOL.toList.splitOn ',').any (fun v => decide (trim v = PROTOCOL.toList)) =
      true := by decide +kernel
  simp only [upgradeAccepted, Bool.and_eq_true, decide_eq_true_eq]
  exact ⟨⟨trivial, h⟩, hoffered⟩

theorem hello_accepted {allow : Finset String} (h : hex (Client.shown id) ∈ allow) :
    readHello allow (some (helloMessage (Client.shown id))) = .ok (hex (Client.shown id)) := by
  have hkey : key (hex (Client.shown id)) = .ok (Client.shown id) :=
    key_hex (P.verifyingKey id.relaySeed).property
  have htype : (helloMessage (Client.shown id)).text? "type" = some "hello" := rfl
  have hshown : (helloMessage (Client.shown id)).text? "publicKey" =
    some (hex (Client.shown id)) := rfl
  unfold readHello
  dsimp only
  rw [if_neg (not_not.mpr htype)]
  simp only [hshown, hkey, if_pos h]

/-- **One event of the script.**  It is possible, and the next stage is reached, unless the state
    before it is in the way. -/
theorem stage_step (h : Genuine config P parse client id asked answered clock workerClock)
    (hserved : Served config parse client.origin) {n : Nat} {e : Event}
    (he : (script config parse client id c nonce asked answered clock workerClock)[n]? = some e)
    (hstage : Stage s c (hex (Client.shown id)) client.origin nonce asked n) :
    ∃ s', step config P s e = some s' ∧
      (Stage s' c (hex (Client.shown id)) client.origin nonce asked (n + 1) ∨
        Hindered s c (hex (Client.shown id))) := by
  have hself : ∀ phase, Function.update s.conns c phase c = phase :=
    fun phase => Function.update_self ..
  match n with
  -- One case for each event of the script; what can hinder it is named where it stands.
  | 0 =>
    obtain rfl := Option.some.inj he
    have hidle : s.conns c = .idle := hstage
    simp only [step, connection, hidle, if_true]
    split
    · exact ⟨_, rfl, .inl (hself _)⟩
    next hfull => exact ⟨_, rfl, .inr ⟨.inl ⟨hidle, not_lt.mp hfull⟩⟩⟩
  | 1 =>
    obtain rfl := Option.some.inj he
    have haccepted : s.conns c = .accepted := hstage
    simp only [step, connection, haccepted, if_true, upgrade_accepted h.listed]
    exact ⟨_, rfl, .inl (hself _)⟩
  | 2 =>
    obtain rfl := Option.some.inj he
    have hupgraded : s.conns c = .upgraded client.origin := hstage
    by_cases hallow : hex (Client.shown id) ∈ s.allow
    · simp only [step, connection, hupgraded, hello_accepted hallow]
      exact ⟨_, rfl, .inl (hself _)⟩
    · simp only [step, connection, hupgraded]
      split
      · exact ⟨_, rfl, .inr ⟨.inr (.inr (.inl hallow))⟩⟩
      · exact ⟨_, rfl, .inr ⟨.inr (.inr (.inl hallow))⟩⟩
  | 3 =>
    obtain rfl := Option.some.inj he
    have hchallenged : s.conns c =
      .challenged (hex (Client.shown id)) client.origin nonce (asked + 10) := hstage
    simp only [step, connection, hchallenged, h.accepted hserved nonce]
    exact ⟨_, rfl, .inl (hself _)⟩
  | 4 =>
    obtain rfl := Option.some.inj he
    have hauthenticated : s.conns c = .authenticated (hex (Client.shown id)) := hstage
    simp only [step, connection, hauthenticated]
    split
    · exact ⟨_, rfl, .inl (hself _)⟩
    next hfull => exact ⟨_, rfl, .inr ⟨.inr (.inl ⟨hauthenticated, not_lt.mp hfull⟩)⟩⟩
  | 5 =>
    obtain rfl := Option.some.inj he
    have hpermitted : s.conns c = .permitted (hex (Client.shown id)) := hstage
    simp only [step, connection, hpermitted]
    split
    · exact ⟨_, rfl, .inl ⟨s.next, hself _⟩⟩
    next hout => exact ⟨_, rfl, .inr ⟨.inr (.inr (.inl hout))⟩⟩
  | 6 =>
    obtain rfl := Option.some.inj he
    obtain ⟨sid, hregistered⟩ : ∃ sid, s.conns c =
      .session (hex (Client.shown id)) sid .registered := hstage
    simp only [step, connection, hregistered]
    by_cases hflag : sid ∈ s.cancelled
    · exact ⟨_, rfl, .inr ⟨.inr (.inr (.inr ⟨sid, hregistered, hflag⟩))⟩⟩
    · rw [if_neg hflag]
      exact ⟨_, rfl, .inl ⟨sid, hself _⟩⟩
  | 7 =>
    obtain rfl := Option.some.inj he
    obtain ⟨sid, hstarted⟩ : ∃ sid, s.conns c =
      .session (hex (Client.shown id)) sid .started := hstage
    simp only [step, connection, hstarted]
    exact ⟨_, rfl, .inl ⟨⟨sid, hself _⟩, List.mem_cons_self⟩⟩
  | n + 8 => cases he

/-- Other tasks leave the connection where it is. -/
theorem step_others {e : Event} (hs : step config P s e = some s') (hc : e.conn? ≠ some c) :
    s'.conns c = s.conns c ∧ ∀ x ∈ s.log, x ∈ s'.log := by
  cases e with
  | admin line saving =>
    obtain rfl := Option.some.inj hs
    unfold admin
    cases line with
    | none => exact ⟨rfl, fun _ hx => hx⟩
    | some a =>
      dsimp only
      split
      · exact ⟨rfl, fun _ hx => hx⟩
      · split
        · split
          · exact ⟨rfl, fun _ hx => hx⟩
          · cases saving with
            | unwritten => exact ⟨rfl, fun _ hx => hx⟩
            | unsynced => exact ⟨rfl, fun _ hx => List.mem_cons_of_mem _ hx⟩
            | done =>
              exact ⟨rfl, fun _ hx => List.mem_cons_of_mem _ (List.mem_cons_of_mem _ hx)⟩
        · exact ⟨rfl, fun _ hx => hx⟩
  | reply task sent =>
    simp only [step] at hs
    split at hs
    · cases hs
    · obtain rfl := Option.some.inj hs
      refine ⟨rfl, fun x hx => ?_⟩
      cases sent with
      | true => exact List.mem_cons_of_mem _ hx
      | false => exact hx
  | sign text url origin nonce expires =>
    obtain rfl := Option.some.inj hs
    exact ⟨rfl, fun _ hx => List.mem_cons_of_mem _ hx⟩
  | _ =>
    simp only [step] at hs
    have htouched := connection_touches rfl hs
    obtain ⟨entry, hlog, -⟩ := htouched.log
    refine ⟨htouched.conns c fun heq => hc (congrArg some heq.symm), fun x hx => ?_⟩
    rw [hlog]
    exact List.mem_append_right _ hx

theorem Stage.others {text origin : String} {n : Nat} (h : Stage s c text origin nonce asked n)
    (hconns : s'.conns c = s.conns c) (hlog : ∀ x ∈ s.log, x ∈ s'.log) :
    Stage s' c text origin nonce asked n := by
  unfold Stage at h ⊢
  rw [hconns]
  split at h
  case h_9 => exact ⟨h.1, hlog _ h.2⟩
  all_goals exact h

/-- **Honest runs.**  However the other tasks come in between, after the first `n` events of the script
    the connection stands at stage `n`, or it met an obstacle on the way. -/
theorem honest_run (h : Genuine config P parse client id asked answered clock workerClock)
    (hserved : Served config parse client.origin) {keys : Finset String} (events : List Event) :
    ∀ (n : Nat) (s : State), run (step config P) (start keys) events = some s →
      own c events =
        (script config parse client id c nonce asked answered clock workerClock).take n → n ≤ 8 →
      Stage s c (hex (Client.shown id)) client.origin nonce asked n ∨
        ∃ before after middle, events = before ++ after ∧
          run (step config P) (start keys) before = some middle ∧
          Hindered middle c (hex (Client.shown id)) := by
  induction events using List.reverseRecOn with
  | nil =>
    intro n s hrun hown hn
    obtain rfl := Option.some.inj hrun
    cases n with
    | zero => exact .inl rfl
    | succ n => cases hown
  | append_singleton events e ih =>
    intro n s hrun hown hn
    obtain ⟨middle, hmiddle, hlast⟩ := run_append hrun
    obtain ⟨s', hs, hend⟩ := run_cons hlast
    obtain rfl : s' = s := Option.some.inj hend
    -- an obstacle of a part of the run is one of the run
    have hlater : (∃ before after middle, events = before ++ after ∧
        run (step config P) (start keys) before = some middle ∧
        Hindered middle c (hex (Client.shown id))) →
        ∃ before after middle, events ++ [e] = before ++ after ∧
          run (step config P) (start keys) before = some middle ∧
          Hindered middle c (hex (Client.shown id)) := by
      rintro ⟨before, after, middle, rfl, hbefore⟩
      exact ⟨before, after ++ [e], middle, List.append_assoc .., hbefore⟩
    have hsplit : own c (events ++ [e]) = own c events ++ own c [e] := List.filter_append ..
    by_cases hc : e.conn? = some c
    · have hone : own c [e] = [e] := List.filter_cons_of_pos (decide_eq_true hc)
      rw [hsplit, hone] at hown
      cases n with
      | zero => exact absurd hown (by simp)
      | succ n =>
        rw [List.take_add_one] at hown
        have hlength : n < (script config parse client id c nonce asked answered clock
          workerClock).length := hn
        rw [List.getElem?_eq_getElem hlength] at hown
        obtain ⟨hfirst, hevent⟩ := List.append_inj' hown rfl
        have he : (script config parse client id c nonce asked answered clock workerClock)[n]? =
            some e := by
          rw [List.getElem?_eq_getElem hlength]
          exact congrArg some (List.cons.inj hevent).1.symm
        rcases ih n middle hmiddle hfirst (by omega) with hstage | hhindered
        · obtain ⟨s₁, hs₁, hnext⟩ := stage_step h hserved he hstage
          obtain rfl : s₁ = s' := Option.some.inj (hs₁.symm.trans hs)
          rcases hnext with hnext | hobstacle
          · exact .inl hnext
          · exact .inr ⟨events, [e], middle, rfl, hmiddle, hobstacle⟩
        · exact .inr (hlater hhindered)
    · have hnone : own c [e] = [] :=
        List.filter_cons_of_neg fun hyes => hc (of_decide_eq_true hyes)
      rw [hsplit, hnone, List.append_nil] at hown
      rcases ih n middle hmiddle hown hn with hstage | hhindered
      · obtain ⟨hconns, hlog⟩ := step_others hs hc
        exact .inl (hstage.others hconns hlog)
      · exact .inr (hlater hhindered)

end Honest

/-! ## §3. A client, and an origin that cannot be signed. -/

theorem demo_derived : true = true → zeros 32 = plain.verifyingKey (zeros 32) := fun _ => rfl

def demoIdentity : Identity plain where
  signingSeed := zeros 32
  relaySeed := zeros 32
  masterKey := zeros 32
  publicKey := zeros 32
  active := true
  derived := demo_derived

def demoClient (origin : String) : Client plain where
  identity := some demoIdentity
  url := demoConfig.publicUrl
  origin := origin

def demoParse (text : String) : Option Url :=
  if text = demoConfig.publicUrl then some ⟨"wss:", "", "", "", "", text⟩ else none

theorem demo_genuine {config : Config} {origin : String}
    (hurl : config.publicUrl = demoConfig.publicUrl) (hvalid : config.valid = true)
    (horigin : origin ∈ config.origins) :
    Genuine config plain demoParse (demoClient origin) demoIdentity 100 105 100000 100000 where
  sound := plain_sound
  valid := hvalid
  unlocked := rfl
  active := rfl
  dialled := hurl.symm
  listed := horigin
  canonical := ⟨⟨"wss:", "", "", "", "", config.publicUrl⟩, by rw [hurl]; rfl, rfl⟩
  agrees := ⟨by decide, by decide⟩
  workerAgrees := ⟨by decide, by decide⟩
  date := by decide
  intime := by decide

/-- A page without an origin of its own: the operator may list `null`, but it cannot be signed. -/
def nullConfig : Config := { demoConfig with origins := {"null"} }

theorem null_unsigned :
    Genuine nullConfig plain demoParse (demoClient "null") demoIdentity 100 105 100000 100000 ∧
    workerSign demoParse (demoClient "null").identity "null"
      ⟨nullConfig.publicUrl, "null", (zeros 32).val, 110⟩ 100000 =
      .error "Invalid relay challenge" ∧
    (run (step nullConfig plain) (start {demoKey})
      ((script nullConfig demoParse (demoClient "null") demoIdentity 0 (zeros 32) 100 105 100000
        100000).take 4)).any (fun s => decide (s.conns 0 = .done ∧ demoKey ∈ s.allow ∧
          s.handshakes = [0] ∧ s.sessions = [])) = true := by
  refine ⟨demo_genuine rfl (by decide +kernel) (by decide +kernel), ?_, ?_⟩
  · decide +kernel
  · decide +kernel

/-! ## §4. Both directions. -/

/-- **The relay handshake.**

    • one message is the challenge of one key, URL, origin, nonce and expiry;
    • a registration is admitted, and its nonce is in no other challenge;
    • an honest client's Worker signs the bytes that the daemon verifies, and its connection gets as far
      as its events: each of them can happen when its turn comes, and after the last one the session
      is ready, unless an obstacle was met. -/
theorem handshake (config : Config) (P : Primitives) :
    (∀ publicKey publicKey' nonce nonce' message url url' origin origin' expires expires',
      expires < 2 ^ 64 → expires' < 2 ^ 64 →
      relayChallenge publicKey url origin nonce expires = .ok message →
      relayChallenge publicKey' url' origin' nonce' expires' = .ok message →
      publicKey = publicKey' ∧ url = url' ∧ origin = origin' ∧ nonce = nonce' ∧
        expires = expires') ∧
    (∀ keys events s, Throughout (step config P) (Assumed config P) (start keys) events →
      run (step config P) (start keys) events = some s →
      ∀ newer c id text older, s.log = newer ++ .registered c id text :: older →
      ∃ origin nonce expires, Admitted config keys c text older origin nonce expires ∧
        ∀ c' text' origin' expires', .challenged c' text' origin' nonce expires' ∈ s.log →
          c' = c ∧ text' = text ∧ origin' = origin ∧ expires' = expires) ∧
    (∀ parse (client : Client P) id asked answered clock workerClock,
      Genuine config P parse client id asked answered clock workerClock →
      Served config parse client.origin → ∀ nonce : Block 32,
      (∃ bytes, relayChallenge (Client.shown id) config.publicUrl client.origin nonce.val
          (asked + 10) = .ok bytes ∧
        client.onMessage .hello (challengeMessage config client.origin nonce (asked + 10)) clock =
          (.signing, some ⟨config.publicUrl, client.origin, nonce.val, (asked + 10 : Nat)⟩) ∧
        workerSign parse client.identity client.origin
          ⟨config.publicUrl, client.origin, nonce.val, (asked + 10 : Nat)⟩ workerClock =
          .ok (P.sign id.relaySeed bytes).val) ∧
      (∀ keys events s c n, run (step config P) (start keys) events = some s → n ≤ 8 →
        own c events =
          (script config parse client id c nonce asked answered clock workerClock).take n →
        (Stage s c (hex (Client.shown id)) client.origin nonce asked n ∧
          ∀ e, (script config parse client id c nonce asked answered clock workerClock)[n]? =
            some e → ∃ s', step config P s e = some s') ∨
        ∃ before after middle, events = before ++ after ∧
          run (step config P) (start keys) before = some middle ∧
          Hindered middle c (hex (Client.shown id))) ∧
      client.onMessage .authenticated readyMessage clock = (.ready, none)) := by
  refine ⟨?_, ?_, ?_⟩
  · intro _ _ _ _ _ _ _ _ _ _ _ he he' h h'
    exact relayChallenge_injective he he' h h'
  · intro keys events s hok hrun newer c id text older hlog
    -- Whoever is registered has signed the challenge of this connection, for this origin and url.
    have hkept : Inv keys s ∧ Authentic config s.log :=
      run_invariant (I := fun s => Inv keys s ∧ Authentic config s.log)
        (fun s e s' h hok hs => ⟨inv_step e h.1 hs, authentic_step h.1 h.2 hok hs⟩) events _ _
        ⟨inv_start keys, trivial⟩ hok hrun
    obtain ⟨origin, nonce, expires, hadmitted⟩ := hkept.1.admitted hkept.2 hlog
    refine ⟨origin, nonce, expires, hadmitted, ?_⟩
    intro c' text' origin' expires' hmem'
    obtain ⟨since, now, signing, before, horder, -⟩ := hadmitted.order
    have hmem : Entry.challenged c text origin nonce expires ∈ s.log := by
      rw [hlog, horder]
      simp
    exact hkept.2.once hmem hmem'
  · intro parse client id asked answered clock workerClock h hserved nonce
    obtain ⟨bytes, hbytes⟩ := h.bytes hserved nonce
    refine ⟨⟨bytes, hbytes, h.signing nonce, h.signs hserved hbytes⟩, ?_, ?_⟩
    · intro keys events s c n hrun hn hown
      -- Either the connection stands where its script has come to, or something has hindered it.
      rcases honest_run h hserved events n s hrun hown hn with hstage | hhindered
      · refine .inl ⟨hstage, ?_⟩
        intro e he
        obtain ⟨s', hs', -⟩ := stage_step h hserved he hstage
        exact ⟨s', hs'⟩
      · exact .inr hhindered
    · unfold Client.onMessage
      rw [if_neg, if_pos ⟨rfl, rfl⟩]
      rintro ⟨htype, -⟩
      exact absurd htype (by decide)

theorem demo_served : Served demoConfig demoParse "https://my98" where
  plain := by
    intro url hparse
    obtain rfl := Option.some.inj hparse
    exact ⟨rfl, rfl, rfl, rfl, rfl⟩
  web := .inl (by decide +kernel)
  shortUrl := by decide +kernel
  shortOrigin := by decide +kernel

/-- The events of the client, with the signature its holder makes. -/
def demoHandshake : List Event :=
  let events := script demoConfig demoParse (demoClient "https://my98") demoIdentity 0 (zeros 32)
    100 105 100000 100000
  events.take 3 ++ .sign demoKey demoConfig.publicUrl "https://my98" (zeros 32) 110 ::
    events.drop 3

theorem demo_handshake :
    ∃ s, run (step demoConfig plain) (start {demoKey}) demoHandshake = some s ∧
      (∃ older origin nonce expires, s.log = [.ready 0] ++ .registered 0 1 demoKey :: older ∧
        Admitted demoConfig {demoKey} 0 demoKey older origin nonce expires) ∧
      (Stage s 0 (hex (Client.shown demoIdentity)) "https://my98" (zeros 32) 100 8 ∨
        ∃ before after middle, demoHandshake = before ++ after ∧
          run (step demoConfig plain) (start {demoKey}) before = some middle ∧
          Hindered middle 0 (hex (Client.shown demoIdentity))) := by
  have hrun : (run (step demoConfig plain) (start {demoKey}) demoHandshake).any (fun s =>
      decide (s.log = [.ready 0] ++ .registered 0 1 demoKey :: s.log.drop 2)) = true := by
    decide +kernel
  have hassumed : Throughout (step demoConfig plain) (Assumed demoConfig plain) (start {demoKey})
      demoHandshake := by decide +kernel
  have hown : own 0 demoHandshake = (script demoConfig demoParse (demoClient "https://my98")
      demoIdentity 0 (zeros 32) 100 105 100000 100000).take 8 := rfl
  obtain ⟨s, hs, hlog⟩ := (Option.any_eq_true _ _).mp hrun
  have hlog := of_decide_eq_true hlog
  obtain ⟨-, hsafe, hhonest⟩ := handshake demoConfig plain
  obtain ⟨origin, nonce, expires, hadmitted, -⟩ :=
    hsafe {demoKey} demoHandshake s hassumed hs [.ready 0] 0 1 demoKey (s.log.drop 2) hlog
  obtain ⟨-, hruns, -⟩ := hhonest demoParse (demoClient "https://my98") demoIdentity 100 105 100000
    100000 (demo_genuine rfl (by decide +kernel) (by decide +kernel)) demo_served (zeros 32)
  refine ⟨s, hs, ⟨s.log.drop 2, origin, nonce, expires, hlog, hadmitted⟩, ?_⟩
  exact (hruns {demoKey} demoHandshake s 0 8 hs (by decide) hown).imp_left And.left

end My98.Relay
