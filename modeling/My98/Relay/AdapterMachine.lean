/-
  My98.Relay.AdapterMachine — the browser's adapter as a state machine (`RelayNetworkAdapter` of
  `src/browser/relay-network.js`).

  Each call of `connect` that passes its first check is an ATTEMPT, named by its generation.  What an
  attempt leaves behind, the call itself and the handlers of its socket, may go on at any time; so
  every variable of these closures is kept for each attempt.  An event is one turn: what runs until
  the next `await`, with what the browser, the signer and the discovery answer.

  The events of a socket may come in any order here, also after a later attempt has begun.  `Standard`
  says which of them a browser fires for the socket of the latest attempt.

  `onState` does nothing.  The bus may call `send` also when it is no longer registered.

    • `step`     — the adapter, and what may happen to it;
    • `Lawful`, `Orderly` — what every entry of the log stands on;
    • `Standard` — the order of a socket's events.
-/
import Mathlib.Logic.Function.Basic
import My98.Lib.Machine
import My98.Relay.Adapter

namespace My98.Relay.Adapter

open My98.Lib My98.Crypto

variable {P : Primitives}

/-! ## §1. The code. -/

inductive Status where
  | connecting
  | online
  | offline
  | rejected
  | identityClosed
  | closed
  deriving DecidableEq

/-- `WebSocket.readyState`. -/
inductive ReadyState where
  | connecting
  | open
  | closing
  | closed
  deriving DecidableEq

/-- `WebSocket.close`. -/
def ReadyState.close : ReadyState → ReadyState
  | .closed => .closed
  | _ => .closing

/-- What a call of `connect` waits for. -/
inductive Wait where
  | nothing
  | key
  | url (publicKey : Bytes)
  deriving DecidableEq

inductive Alarm where
  | reconnect (delay : Nat)
  /-- The fifteen seconds that an attempt has for its authentication. -/
  | auth (k : Nat)
  deriving DecidableEq

/-- The data of a message. -/
inductive Data where
  /-- An `ArrayBuffer`; `throws` if the bus does. -/
  | binary (frame : Bytes) (throws : Bool)
  /-- Anything else, as `JSON.parse` reads it, and `Date.now()`. -/
  | text (message : Option Json) (now : Int)

inductive Entry where
  | attempt (k : Nat)
  | retry
  | destroy
  | created (k : Nat) (url : String)
  | hello (k : Nat) (publicKey : Bytes)
  /-- A challenge is accepted, and the signer asked to sign it. -/
  | challenge (k : Nat) (message : Json) (challenge : Challenge)
  | authenticate (k : Nat) (signature : Bytes)
  | ready (k : Nat)
  | sent (k : Nat) (frame : Bytes)
  | delivered (k : Nat) (frame : Bytes)
  /-- The wrong subprotocol, or a message that is out of place. -/
  | violation (k : Nat)
  /-- The socket was closed with code 1008. -/
  | refused (k : Nat)

structure State where
  generation : Nat
  closed : Bool
  ready : Bool
  delay : Nat
  status : Status
  /-- Empty when there is none. -/
  url : String
  socket : Option Nat
  controller : Option Nat
  /-- The controllers that were aborted. -/
  aborted : List Nat
  retryTimer : Option Nat
  authTimer : Option Nat
  /-- The timers of the page that are armed. -/
  timers : List (Nat × Alarm)
  nextTimer : Nat
  waits : Nat → Wait
  /-- The public key that the handlers of a socket have; `none` when there is no socket. -/
  made : Nat → Option Bytes
  phase : Nat → ClientPhase
  readyState : Nat → ReadyState
  /-- The signatures that a socket's messages wait for. -/
  signing : Nat → Nat
  /-- The latest first. -/
  log : List Entry

inductive Event where
  /-- `relayPublicKey` has settled, `none` when it fails; `new WebSocketClass` may throw. -/
  | key (k : Nat) (result : Option Bytes) (throws : Bool)
  /-- `resolveURL` has settled. -/
  | url (k : Nat) (result : Option String) (throws : Bool)
  | open (k : Nat) (protocol : String)
  | message (k : Nat) (data : Data)
  /-- `signRelayChallenge` has settled. -/
  | signature (k : Nat) (result : Option Bytes)
  | close (k code : Nat)
  /-- The browser itself begins to close the socket: `readyState` changes, and no handler runs. -/
  | closing (k : Nat)
  | timer (id : Nat)
  /-- The bus calls `send`. -/
  | send (frame : Bytes) (bufferedAmount : Nat)
  | retry
  | destroy (update : Bool)
  | identityClosed

namespace State

def setTimeout (s : State) (alarm : Alarm) : State :=
  { s with timers := s.timers ++ [(s.nextTimer, alarm)], nextTimer := s.nextTimer + 1 }

def clearTimeout (s : State) (id : Option Nat) : State :=
  { s with timers := s.timers.filter fun t => some t.1 ≠ id }

/-- `socket.close()`. -/
def close (s : State) (k : Nat) : State :=
  { s with readyState := Function.update s.readyState k (s.readyState k).close }

/-- `this.socket?.close()`. -/
def closeSocket (s : State) : State :=
  match s.socket with
  | none => s
  | some k => s.close k

/-- `this.discoveryController?.abort()`. -/
def abort (s : State) : State := { s with aborted := s.aborted ++ s.controller.toList }

/-- `connect`, up to its first `await`. -/
def connect (s : State) : State :=
  let s := (s.clearTimeout s.retryTimer).clearTimeout s.authTimer
  let s := { s with generation := s.generation + 1, ready := false }
  let s := s.closeSocket.abort
  if s.closed then s
  else
    { s with
      status := .connecting
      waits := Function.update s.waits s.generation .key
      made := Function.update s.made s.generation none
      log := .attempt s.generation :: s.log }

def reconnect (s : State) (k : Nat) : State :=
  if s.closed = true ∨ k ≠ s.generation then s
  else
    { ({ s with ready := false, status := .offline, delay := min 30000 (s.delay * 2) }).setTimeout
        (.reconnect s.delay) with
      retryTimer := some s.nextTimer }

def retry (s : State) : State :=
  if s.closed then s else connect { s with delay := 1000, log := .retry :: s.log }

def destroy (s : State) (update : Bool) : State :=
  if s.closed then s
  else
    let s := { s with
      closed := true, ready := false, generation := s.generation + 1, log := .destroy :: s.log }
    let s := (s.clearTimeout s.retryTimer).clearTimeout s.authTimer
    let s := s.closeSocket.abort
    if update then { s with status := .closed } else s

/-- The socket of an attempt is made. -/
def dial (s : State) (k : Nat) (publicKey : Bytes) (url : String) (throws : Bool) : State :=
  let s := { s with url }
  if throws then s.reconnect k
  else
    let s := { s with
      socket := some k
      made := Function.update s.made k (some publicKey)
      phase := Function.update s.phase k .hello
      readyState := Function.update s.readyState k .connecting
      signing := Function.update s.signing k 0
      log := .created k url :: s.log }
    { s.setTimeout (.auth k) with authTimer := some s.nextTimer }

/-- `current()`. -/
def current (s : State) (k : Nat) : Bool := decide (k = s.generation) && !s.closed

/-- `connect` goes on with the public key. -/
def onKey (client : Client P) (s : State) (k : Nat) (result : Option Bytes) (throws : Bool) : State :=
  match result with
  | none => if k = s.generation then destroy { s with status := .identityClosed } false else s
  | some publicKey =>
    if k ≠ s.generation ∨ s.closed = true then s
    else
      let s := { s with controller := some k }
      if client.url ≠ "" then s.dial k publicKey client.url throws
      else { s with waits := Function.update s.waits k (.url publicKey) }

/-- `connect` goes on with the URL. -/
def onUrl (s : State) (k : Nat) (publicKey : Bytes) (result : Option String) (throws : Bool) : State :=
  match result with
  | none => s.reconnect k
  | some url => if k ≠ s.generation ∨ s.closed = true then s else s.dial k publicKey url throws

/-- The last lines of `onmessage`. -/
def reject (s : State) (k : Nat) : State :=
  close { s with phase := Function.update s.phase k .rejected, status := .rejected } k

def violation (s : State) (k : Nat) : State := reject { s with log := .violation k :: s.log } k

def onOpen (s : State) (k : Nat) (publicKey : Bytes) (protocol : String) : State :=
  if s.current k = false then s
  else if protocol ≠ PROTOCOL then s.violation k
  else { s with log := .hello k publicKey :: s.log }

/-- `onmessage`, up to its first `await`. -/
def onMessage (client : Client P) (s : State) (k : Nat) (data : Data) : State :=
  if s.current k = false then s
  else
    match data with
    | .binary frame throws =>
      if s.ready = false ∨ frame.length < 14 ∨ 1514 < frame.length then s.violation k
      else
        let s := { s with log := .delivered k frame :: s.log }
        if throws then s.reject k else s
    | .text none _ => s.violation k
    | .text (some message) now =>
      match { client with url := s.url }.onMessage (s.phase k) message now with
      | (.signing, some challenge) =>
        { s with
          phase := Function.update s.phase k .signing
          signing := Function.update s.signing k (s.signing k + 1)
          log := .challenge k message challenge :: s.log }
      | (.ready, none) =>
        { s.clearTimeout s.authTimer with
          phase := Function.update s.phase k .ready
          ready := true
          delay := 1000
          status := .online
          log := .ready k :: s.log }
      | _ => s.violation k

/-- `onmessage` goes on with the signature. -/
def onSignature (s : State) (k : Nat) (result : Option Bytes) : State :=
  match result with
  | none => if s.current k then s.reject k else s
  | some signature =>
    if s.current k = false ∨ s.readyState k ≠ .open then s
    else
      { s with
        phase := Function.update s.phase k .authenticated
        log := .authenticate k signature :: s.log }

def onClose (s : State) (k code : Nat) : State :=
  if s.current k = false then s
  else
    let s := { s.clearTimeout s.authTimer with ready := false }
    if code = 1008 then { s with status := .rejected, log := .refused k :: s.log }
    else if s.phase k = .rejected then { s with status := .rejected }
    else s.reconnect k

/-- A timer goes off. -/
def onAlarm (s : State) : Alarm → State
  | .reconnect _ => s.connect
  | .auth k => if s.current k = true ∧ s.ready = false then s.close k else s

def send (s : State) (frame : Bytes) (bufferedAmount : Nat) : State :=
  match s.socket with
  | none => s
  | some k =>
    if s.ready = false ∨ s.readyState k ≠ .open then s
    else if 1514 < frame.length ∨ 65536 < bufferedAmount then s
    else { s with log := .sent k frame :: s.log }

/-- What the constructor sets. -/
def new (client : Client P) : State :=
  { generation := 0, closed := false, ready := false, delay := 1000, status := .connecting,
    url := client.url, socket := none, controller := none, aborted := [], retryTimer := none,
    authTimer := none, timers := [], nextTimer := 1, waits := fun _ => .nothing, made := fun _ => none,
    phase := fun _ => .hello, readyState := fun _ => .closed, signing := fun _ => 0, log := [] }

/-- The constructor. -/
def start (client : Client P) : State := (new client).connect

end State

def step (client : Client P) (s : State) : Event → Option State
  | .key k result throws =>
    if s.waits k = .key then
      some (State.onKey client { s with waits := Function.update s.waits k .nothing } k result throws)
    else none
  | .url k result throws =>
    match s.waits k with
    | .url publicKey =>
      some (State.onUrl { s with waits := Function.update s.waits k .nothing } k publicKey result throws)
    | _ => none
  | .open k protocol =>
    (s.made k).map fun publicKey =>
      State.onOpen
        { s with
          readyState :=
            if s.readyState k = .connecting then Function.update s.readyState k .open else s.readyState }
        k publicKey protocol
  | .message k data => if (s.made k).isSome = true then some (s.onMessage client k data) else none
  | .signature k result =>
    if 0 < s.signing k then
      some (State.onSignature { s with signing := Function.update s.signing k (s.signing k - 1) } k result)
    else none
  | .close k code =>
    if (s.made k).isSome = true then
      some (State.onClose { s with readyState := Function.update s.readyState k .closed } k code)
    else none
  | .closing k => if (s.made k).isSome = true then some (s.close k) else none
  | .timer id =>
    (s.timers.find? fun t => t.1 = id).map fun t => State.onAlarm (s.clearTimeout (some id)) t.2
  | .send frame bufferedAmount => some (s.send frame bufferedAmount)
  | .retry => some s.retry
  | .destroy update => some (s.destroy update)
  | .identityClosed => some (State.destroy { s with status := .identityClosed } false)

/-- **The order of the WebSocket standard**, for the socket of the latest attempt: `open` when it was
    connecting, messages between `open` and `close`, and one `close`. -/
def Standard (s : State) : Event → Prop
  | .open k _ => s.current k = true → s.readyState k = .connecting
  | .message k _ => s.current k = true → s.readyState k = .open ∨ s.readyState k = .closing
  | .close k _ => s.current k = true → s.readyState k ≠ .closed
  | _ => True

instance (s : State) : ∀ e, Decidable (Standard s e)
  | .open k _ => inferInstanceAs (Decidable (s.current k = true → s.readyState k = .connecting))
  | .message k _ =>
    inferInstanceAs (Decidable (s.current k = true → s.readyState k = .open ∨ s.readyState k = .closing))
  | .close k _ => inferInstanceAs (Decidable (s.current k = true → s.readyState k ≠ .closed))
  | .key _ _ _ => isTrue trivial
  | .url _ _ _ => isTrue trivial
  | .signature _ _ => isTrue trivial
  | .closing _ => isTrue trivial
  | .timer _ => isTrue trivial
  | .send _ _ => isTrue trivial
  | .retry => isTrue trivial
  | .destroy _ => isTrue trivial
  | .identityClosed => isTrue trivial

/-! ## §2. What the log says. -/

/-- The latest attempt. -/
def latest : List Entry → Option Nat
  | [] => none
  | .attempt k :: _ => some k
  | _ :: earlier => latest earlier

/-- The relay has been refused, or has violated the protocol, and nobody has called `retry` since. -/
def Barred : List Entry → Prop
  | [] => False
  | .violation _ :: _ => True
  | .refused _ :: _ => True
  | .retry :: _ => False
  | _ :: earlier => Barred earlier

/-- A challenge was signed on the socket, and the signature accepted. -/
def Approved (k : Nat) (log : List Entry) : Prop :=
  ∃ message challenge signature,
    [.ready k, .authenticate k signature, .challenge k message challenge].Sublist log

/-- The whole handshake, in its order. -/
def Exchanged (k : Nat) (log : List Entry) : Prop :=
  ∃ publicKey message challenge signature,
    [.ready k, .authenticate k signature, .challenge k message challenge, .hello k publicKey].Sublist log

def isReconnect (t : Nat × Alarm) : Bool :=
  match t.2 with
  | .reconnect _ => true
  | .auth _ => false

/-- What an entry stands on, in whatever order the events come.  Nothing stands on `destroy`. -/
def Lawful (client : Client P) (earlier : List Entry) (e : Entry) : Prop :=
  .destroy ∉ earlier ∧
  match e with
  | .created k _ => latest earlier = some k ∧ ∀ url, .created k url ∉ earlier
  | .challenge k message challenge =>
    (∀ message' challenge', .challenge k message' challenge' ∉ earlier) ∧
    ∃ url, .created k url ∈ earlier ∧ message.text? "url" = some url ∧
      message.text? "origin" = some client.origin ∧ challenge.url = url ∧ challenge.origin = client.origin
  | .sent k _ => latest earlier = some k ∧ Approved k earlier
  | .delivered k _ => latest earlier = some k ∧ Approved k earlier
  | _ => True

/-- And what it stands on if they come in the order of the standard. -/
def Orderly (earlier : List Entry) : Entry → Prop
  | .attempt _ => ¬Barred earlier
  | .sent k _ => Exchanged k earlier
  | .delivered k _ => Exchanged k earlier
  | _ => True

def Grounded (good : List Entry → Entry → Prop) : List Entry → Prop
  | [] => True
  | e :: earlier => good earlier e ∧ Grounded good earlier

theorem Grounded.good {good : List Entry → Entry → Prop} {later earlier : List Entry} {e : Entry}
    (h : Grounded good (later ++ e :: earlier)) : good earlier e := by
  induction later with
  | nil => exact h.1
  | cons first later ih => exact ih h.2

end My98.Relay.Adapter
