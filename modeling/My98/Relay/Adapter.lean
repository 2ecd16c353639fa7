/-
  My98.Relay.Adapter — the browser's side of the handshake (`src/browser/relay-network.js`:
  `RelayNetworkAdapter`; `src/disk/web/worker.js`: `signRelayChallenge`).

  The adapter checks a challenge against what it asked for, and the Worker, which owns the
  identity, checks it once more before it signs.  The Worker signs the URL as its own parser writes
  it: the parser is the parameter `parse`.
-/
import Mathlib.Algebra.Order.Ring.Nat
import Mathlib.Tactic.Common
import My98.Relay.Daemon

namespace My98.Relay

open My98.Lib My98.Crypto

/-! ## §1. The Worker. -/

/-- The parts of `new URL(text)` that are read. -/
structure Url where
  protocol : String
  username : String
  password : String
  search : String
  hash : String
  href : String

/-- A number of a JSON text that `Number.isSafeInteger` accepts. -/
def safeInteger : Option Json → Option Int
  | some (.int n) => if n.natAbs < 2 ^ 53 then some n else none
  | some (.float (some n)) => if n.natAbs < 2 ^ 53 then some n else none
  | _ => none

/-- Not more than a second over, and not more than eleven seconds to go. -/
def inWindow (expires clock : Int) : Bool :=
  decide (clock - 1000 ≤ expires * 1000) && decide (expires * 1000 ≤ clock + 11000)

structure Challenge where
  url : String
  origin : String
  nonce : Bytes
  expires : Int

variable {P : Primitives}

/-- `signRelayChallenge` of the Worker; `location` is `self.location.origin`. -/
def workerSign (parse : String → Option Url) (identity : Option (Identity P)) (location : String)
    (a : Challenge) (clock : Int) : Except String Bytes :=
  match identity with
  | none => .error "Relay authentication requires an unlocked identity"
  | some id =>
    match parse a.url with
    | none => .error "Invalid URL"
    | some url =>
      if url.protocol ≠ "wss:" ∨ url.username ≠ "" ∨ url.password ≠ "" ∨ url.hash ≠ "" ∨
          url.search ≠ "" ∨ a.origin ≠ location ∨ ¬ a.expires.natAbs < 2 ^ 53 ∨
          inWindow a.expires clock = false then
        .error "Invalid relay challenge"
      else signRelayChallenge id url.href a.origin a.nonce (a.expires % 2 ^ 64).toNat

/-! ## §2. The adapter. -/

/-- `url` is where the socket is open; `origin` is the page's and the Worker's. -/
structure Client (P : Primitives) where
  identity : Option (Identity P)
  url : String
  origin : String

inductive ClientPhase where
  | hello
  | signing
  | authenticated
  | ready
  | rejected
  deriving DecidableEq

/-- The first message, with the key the Worker names. -/
def helloMessage (publicKey : Bytes) : Json :=
  .obj [("type", .str "hello"), ("publicKey", .str (hex publicKey))]

/-- The message `{"type":"ready"}`. -/
def readyMessage : Json := .obj [("type", .str "ready")]

/-- `onmessage` for a text message, up to the call of the signer. -/
def Client.onMessage (client : Client P) (phase : ClientPhase) (message : Json) (clock : Int) :
    ClientPhase × Option Challenge :=
  if message.text? "type" = some "challenge" ∧ phase = .hello ∧
      message.text? "url" = some client.url ∧ message.text? "origin" = some client.origin ∧
      (safeInteger (message.get? "expires")).any (fun expires => inWindow expires clock) then
    match message.text? "nonce", safeInteger (message.get? "expires") with
    | some text, some expires =>
      match unhex text 32 with
      | some nonce => (.signing, some ⟨client.url, client.origin, nonce, expires⟩)
      | none => (.rejected, none)
    | _, _ => (.rejected, none)
  else if message.text? "type" = some "ready" ∧ phase = .authenticated then (.ready, none)
  else (.rejected, none)

/-- The signer's answer, as it is sent on. -/
def Client.answer (parse : String → Option Url) (client : Client P) (message : Json)
    (clock workerClock : Int) : Option Json :=
  match client.onMessage .hello message clock with
  | (_, some challenge) =>
    match workerSign parse client.identity client.origin challenge workerClock with
    | .ok signature =>
      some (.obj [("type", .str "authenticate"), ("signature", .str (hex signature))])
    | .error _ => none
  | (_, none) => none

/-! ## §3. Hexadecimal text in both cases. -/

theorem hexDecode_hex (b : Bytes) : hexDecode (hex b) = some b := by
  have hlower : ∀ n : Nat, n < 16 → ¬ ('A' ≤ hexDigit n ∧ hexDigit n ≤ 'F') := by decide
  unfold hexDecode hex
  rw [String.toList_ofList, List.map_congr_left (g := id), List.map_id]
  · exact unhexPairs_hex b
  · intro c hc
    obtain ⟨x, -, hx⟩ := List.mem_flatMap.mp hc
    have hbyte := x.toNat_lt
    have hdigit : ¬ ('A' ≤ c ∧ c ≤ 'F') := by
      rcases List.mem_cons.mp hx with rfl | hx
      · exact hlower _ (by omega)
      · rw [List.mem_singleton.mp hx]
        exact hlower _ (by omega)
    exact if_neg hdigit

theorem key_hex {publicKey : Bytes} (h : publicKey.length = 32) :
    key (hex publicKey) = .ok publicKey := by
  have hread := unhex_hex publicKey
  rw [h] at hread
  unfold key
  rw [hread]

end My98.Relay
