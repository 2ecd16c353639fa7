/-
  My98.Relay.Daemon — the relay daemon as a state machine (`src/relay/src/main.rs`).

  The daemon has ONE shared state (the allow set, the active map, two semaphores) and any number of
  tasks: a task of `connection` per socket, a task of `admin` per line of the admin socket.  A step
  is what one task does between two points where another may come in between: an `await`, or the
  section it holds a mutex for.  Whatever the network, the disk and the clock choose is in the event.

    • `Phase`, `Point` — where the task of a connection stands, with the variables it keeps there;
    • `step`           — one step of one task;
    • `Entry`          — what a step leaves in the log, newest first.  The log is not in the code:
                         it is what the statements about an order of events speak of.

  The holders of relay keys are outside the daemon; `sign` is one of them signing a challenge.
  Outside the model: the capability announcement, heartbeats and the counters.  No step reads them.
-/
import Mathlib.Data.Finset.Basic
import Mathlib.Algebra.Order.Ring.Nat
import Mathlib.Tactic.Common
import My98.Crypto.Identity
import My98.Lib.Json
import My98.Lib.Machine
import My98.Relay.Challenge
import My98.Relay.Firewall

namespace My98.Relay

open My98.Lib My98.Crypto

/-! ## §1. Data. -/

def PROTOCOL : String := "my98-relay.v1"

def relayPath : String := "/my98-relay/v1"

/-- The fields of the configuration that a connection reads. -/
structure Config where
  publicUrl : String
  origins : Finset String
  hostIps : List (List Nat)

/-- A line of the admin socket. -/
structure Admin where
  command : String
  publicKey : String
  deriving DecidableEq

/-- How far `save_allow` comes: an error before the file has its new name, an error after (the
    directory could not be synced), or none. -/
inductive Saving where
  | unwritten
  | unsynced
  | done
  deriving DecidableEq

/-- To the network stack, or to the client. -/
inductive Direction where
  | input
  | output
  deriving DecidableEq

/-- Where a registered connection stands. -/
inductive Point where
  /-- The network stack is being started. -/
  | registered
  /-- Not cancelled when it had started; `ready` is being sent. -/
  | started
  /-- At the top of the loop. -/
  | selecting
  /-- `cancelled.changed()`, the first branch of the `select`, was not ready. -/
  | waiting
  | checked (direction : Direction) (frame : Bytes)
  /-- On the way out, the registration not dropped yet. -/
  | leaving
  deriving DecidableEq

inductive Phase where
  | idle
  | accepted
  | upgraded (origin : String)
  | challenged (key origin : String) (nonce : Block 32) (expires : Nat)
  | authenticated (key : String)
  /-- Holds one of the four session permits. -/
  | permitted (key : String)
  | session (key : String) (id : Nat) (point : Point)
  /-- Not registered, its permits not released yet. -/
  | done
  | closed
  deriving DecidableEq

/-- The id a connection is in the active map under. -/
def Phase.id? : Phase → Option Nat
  | .session _ id _ => some id
  | _ => none

inductive Entry where
  | saved (keys : Finset String)
  | allowed (task : Nat) (key : String)
  | revoked (task : Nat) (key : String)
  /-- `{"ok":true}` was written. -/
  | answered (task : Nat) (request : Admin)
  | signed (key url origin : String) (nonce : Block 32) (expires : Nat)
  | upgraded (c : Nat) (origin : String)
  | challenged (c : Nat) (key origin : String) (nonce : Block 32) (expires : Nat)
  | proved (c : Nat) (key origin : String) (nonce : Block 32) (expires now : Nat)
  | registered (c id : Nat) (key : String)
  | ready (c : Nat)
  | checked (c : Nat) (key : String) (direction : Direction) (frame : Bytes)
  | passed (c : Nat) (direction : Direction) (frame : Bytes)
  /-- The cancelled branch was taken. -/
  | stopped (c : Nat)
  | dropped (id : Nat)
  deriving DecidableEq

/-- `cancelled` lists the ids whose watch channel holds `true`; `sessions` and `handshakes` the
    connections that hold a permit; `tasks` the admin requests whose answer is still to be written. -/
structure State where
  allow : Finset String
  file : Finset String
  active : List (Nat × String)
  cancelled : List Nat
  sessions : List Nat
  handshakes : List Nat
  next : Nat
  tasks : List (Nat × Admin)
  requests : Nat
  conns : Nat → Phase
  log : List Entry

/-- `main` before the first `accept`. -/
def start (keys : Finset String) : State where
  allow := keys
  file := keys
  active := []
  cancelled := []
  sessions := []
  handshakes := []
  next := 1
  tasks := []
  requests := 0
  conns := fun _ => .idle
  log := []

inductive Event where
  | accept (c : Nat)
  /-- The request line and two of its headers; a header that is missing is empty. -/
  | upgrade (c : Nat) (path origin requested : String)
  /-- The first message, if it is a text that parses; the random nonce; the clock. -/
  | hello (c : Nat) (message : Option Json) (nonce : Block 32) (now : Nat)
  | authenticate (c : Nat) (message : Option Json) (now : Nat)
  /-- An `await` ends in an error or in a timeout, or the peer closes. -/
  | fail (c : Nat)
  | acquire (c : Nat)
  | register (c : Nat)
  | look (c : Nat)
  | ready (c : Nat)
  | select (c : Nat)
  /-- A round of the loop without a frame: a ping, a pong, a heartbeat, or nothing yet. -/
  | turn (c : Nat)
  | incoming (c : Nat) (bytes : Bytes)
  | outgoing (c : Nat) (frame : Bytes)
  | pass (c : Nat) (sent : Bool)
  | drop (c : Nat)
  | release (c : Nat)
  | admin (line : Option Admin) (saving : Saving)
  | reply (task : Nat) (sent : Bool)
  | sign (key url origin : String) (nonce : Block 32) (expires : Nat)

/-! ## §2. The checks. -/

/-- Exactly 64 lowercase hexadecimal digits. -/
def key (value : String) : Except String Bytes :=
  match unhex value 32 with
  | some bytes => .ok bytes
  | none => .error "Invalid public key"

/-- `hex::decode`, which reads both cases. -/
def hexDecode (text : String) : Option Bytes :=
  unhexPairs (text.toList.map fun c => if 'A' ≤ c ∧ c ≤ 'F' then Char.ofNat (c.toNat + 32) else c)

def trim (v : List Char) : List Char :=
  ((v.dropWhile Char.isWhitespace).reverse.dropWhile Char.isWhitespace).reverse

/-- The upgrade callback. -/
def upgradeAccepted (config : Config) (path origin requested : String) : Bool :=
  decide (path = relayPath) && decide (origin ∈ config.origins) &&
    (requested.toList.splitOn ',').any fun v => decide (trim v = PROTOCOL.toList)

/-- From the first message to the key it names, if the key is allowed. -/
def readHello (allow : Finset String) (message : Option Json) : Except String String :=
  match message with
  | none => .error "Expected authentication message"
  | some hello =>
    if hello.text? "type" ≠ some "hello" then .error "Expected hello"
    else
      match hello.text? "publicKey" with
      | none => .error "Missing public key"
      | some text =>
        match key text with
        | .error m => .error m
        | .ok _ => if text ∈ allow then .ok text else .error "Not authorized"

/-- The check of the answer to a challenge. -/
def readAnswer (P : Primitives) (config : Config) (text origin : String) (nonce : Block 32)
    (expires : Nat) (message : Option Json) (now : Nat) : Except String Unit :=
  match message with
  | none => .error "Expected authentication message"
  | some response =>
    if response.text? "type" ≠ some "authenticate" ∨ expires ≤ now then
      .error "Challenge expired or invalid"
    else
      match response.text? "signature" with
      | none => .error "Missing signature"
      | some signature =>
        match hexDecode signature with
        | none => .error "Invalid hexadecimal text"
        | some signature =>
          match key text with
          | .error m => .error m
          | .ok publicKey =>
            match relayChallenge publicKey config.publicUrl origin nonce.val expires with
            | .error m => .error m
            | .ok message =>
              if verify P publicKey message signature then .ok () else .error "Signature rejected"

/-- What the client is asked to sign. -/
def challengeMessage (config : Config) (origin : String) (nonce : Block 32) (expires : Nat) :
    Json :=
  .obj [("type", .str "challenge"), ("url", .str config.publicUrl), ("origin", .str origin),
    ("nonce", .str (hex nonce.val)), ("expires", .int expires)]

/-! ## §3. The admin task. -/

/-- The set a request asks for. -/
def nextAllow (a : Admin) (keys : Finset String) : Finset String :=
  if a.command = "allow" then insert a.publicKey keys else keys.erase a.publicKey

/-- The ids a request cancels. -/
def cancels (a : Admin) (active : List (Nat × String)) : List Nat :=
  if a.command = "revoke" then (active.filter fun e => e.2 = a.publicKey).map Prod.fst else []

/-- `admin`, up to the answer: one section of the mutex. -/
def admin (s : State) (line : Option Admin) (saving : Saving) : State :=
  match line with
  | none => s
  | some a =>
    if a.command = "status" then
      { s with tasks := (s.requests, a) :: s.tasks, requests := s.requests + 1 }
    else if a.command = "allow" ∨ a.command = "revoke" then
      match key a.publicKey with
      | .error _ => s
      | .ok _ =>
        let next := nextAllow a s.allow
        match saving with
        | .unwritten => s
        | .unsynced => { s with file := next, log := .saved next :: s.log }
        | .done =>
          let entry := if a.command = "allow" then Entry.allowed s.requests a.publicKey
            else Entry.revoked s.requests a.publicKey
          { s with
            file := next, allow := next, cancelled := cancels a s.active ++ s.cancelled
            tasks := (s.requests, a) :: s.tasks, requests := s.requests + 1
            log := entry :: .saved next :: s.log }
    else s

/-! ## §4. The connection task. -/

/-- The connection goes on in another phase. -/
def State.move (s : State) (c : Nat) (phase : Phase) : State :=
  { s with conns := Function.update s.conns c phase }

def State.note (s : State) (entry : Entry) : State := { s with log := entry :: s.log }

/-- An error: what is registered has its registration dropped on the way out. -/
def failed : Phase → Option Phase
  | .idle | .done | .closed | .session _ _ .leaving => none
  | .session key id _ => some (.session key id .leaving)
  | _ => some .done

/-- The allow set is asked again for every frame, in both directions. -/
def State.check (s : State) (c : Nat) (key : String) (id : Nat) (direction : Direction)
    (frame : Bytes) (admitted : Bool) : State :=
  if key ∈ s.allow then
    (s.move c (.session key id (if admitted then .checked direction frame else .selecting))).note
      (.checked c key direction frame)
  else s.move c (.session key id .leaving)

def connection (config : Config) (P : Primitives) (s : State) : Event → Option State
  | .accept c =>
    if s.conns c = .idle then
      if s.handshakes.length < 32 then
        some { s.move c .accepted with handshakes := c :: s.handshakes }
      else some (s.move c .closed)
    else none
  | .upgrade c path origin requested =>
    if s.conns c = .accepted then
      if upgradeAccepted config path origin requested then
        some ((s.move c (.upgraded origin)).note (.upgraded c origin))
      else some (s.move c .done)
    else none
  | .hello c message nonce now =>
    match s.conns c with
    | .upgraded origin =>
      match readHello s.allow message with
      | .error _ => some (s.move c .done)
      | .ok text =>
        some ((s.move c (.challenged text origin nonce (now + 10))).note
          (.challenged c text origin nonce (now + 10)))
    | _ => none
  | .authenticate c message now =>
    match s.conns c with
    | .challenged text origin nonce expires =>
      match readAnswer P config text origin nonce expires message now with
      | .error _ => some (s.move c .done)
      | .ok _ =>
        some ((s.move c (.authenticated text)).note (.proved c text origin nonce expires now))
    | _ => none
  | .fail c => (failed (s.conns c)).map (s.move c)
  | .acquire c =>
    match s.conns c with
    | .authenticated text =>
      if s.sessions.length < 4 then
        some { s.move c (.permitted text) with sessions := c :: s.sessions }
      else some (s.move c .done)
    | _ => none
  | .register c =>
    match s.conns c with
    | .permitted text =>
      if text ∈ s.allow then
        some { (s.move c (.session text s.next .registered)).note (.registered c s.next text) with
          active := (s.next, text) :: s.active, next := s.next + 1 }
      else some { s.move c .done with next := s.next + 1 }
    | _ => none
  | .look c =>
    match s.conns c with
    | .session text id .registered =>
      some (s.move c (.session text id (if id ∈ s.cancelled then .leaving else .started)))
    | _ => none
  | .ready c =>
    match s.conns c with
    | .session text id .started =>
      some { (s.move c (.session text id .selecting)).note (.ready c) with
        handshakes := s.handshakes.erase c }
    | _ => none
  | .select c =>
    match s.conns c with
    | .session text id .selecting =>
      if id ∈ s.cancelled then some ((s.move c (.session text id .leaving)).note (.stopped c))
      else some (s.move c (.session text id .waiting))
    | _ => none
  | .turn c =>
    match s.conns c with
    | .session text id .waiting => some (s.move c (.session text id .selecting))
    | _ => none
  | .incoming c bytes =>
    match s.conns c with
    | .session text id .waiting =>
      some (s.check c text id .input bytes (frameAllowed bytes config.hostIps))
    | _ => none
  | .outgoing c frame =>
    match s.conns c with
    | .session text id .waiting => some (s.check c text id .output frame true)
    | _ => none
  | .pass c sent =>
    match s.conns c with
    | .session text id (.checked direction frame) =>
      if sent then some ((s.move c (.session text id .selecting)).note (.passed c direction frame))
      else some (s.move c (.session text id (if direction = .input then .selecting else .leaving)))
    | _ => none
  | .drop c =>
    match s.conns c with
    | .session _ id .leaving =>
      some { (s.move c .done).note (.dropped id) with
        active := s.active.filter fun e => e.1 ≠ id }
    | _ => none
  | .release c =>
    if s.conns c = .done then
      some { s.move c .closed with
        sessions := s.sessions.erase c, handshakes := s.handshakes.erase c }
    else none
  | _ => none

/-- One step of the daemon, or of a holder of a relay key. -/
def step (config : Config) (P : Primitives) (s : State) : Event → Option State
  | .admin line saving => some (admin s line saving)
  | .reply task sent =>
    match s.tasks.find? fun t => t.1 = task with
    | none => none
    | some t =>
      some { s with
        tasks := s.tasks.filter fun t => t.1 ≠ task
        log := if sent then .answered task t.2 :: s.log else s.log }
  | .sign text url origin nonce expires => some (s.note (.signed text url origin nonce expires))
  | event => connection config P s event

/-! ## §5. What a connection touches. -/

/-- The connection whose task an event belongs to. -/
def Event.conn? : Event → Option Nat
  | .accept c | .upgrade c _ _ _ | .hello c _ _ _ | .authenticate c _ _ | .fail c | .acquire c
  | .register c | .look c | .ready c | .select c | .turn c | .incoming c _ | .outgoing c _
  | .pass c _ | .drop c | .release c => some c
  | .admin _ _ | .reply _ _ | .sign _ _ _ _ _ => none

/-- The entries of a handshake. -/
def Entry.vouches : Entry → Bool
  | .signed _ _ _ _ _ | .upgraded _ _ | .challenged _ _ _ _ _ | .proved _ _ _ _ _ _ => true
  | _ => false

/-- The events of a handshake. -/
def Event.vouches : Event → Bool
  | .upgrade _ _ _ _ | .hello _ _ _ _ | .authenticate _ _ _ => true
  | _ => false

/-- A task of connection `c` changes no allow set and no other connection, and adds one entry at
    most, one of a handshake only where `vouching`. -/
structure Touched (s s' : State) (c : Nat) (vouching : Bool) : Prop where
  allow : s'.allow = s.allow
  conns : ∀ c' ≠ c, s'.conns c' = s.conns c'
  log : ∃ entry : Option Entry, s'.log = entry.toList ++ s.log ∧
    ∀ e ∈ entry, e.vouches = true → vouching = true

section Touched

variable {config : Config} {P : Primitives} {s s' : State} {c : Nat} {vouching : Bool}

theorem touched_move (s : State) (c : Nat) (phase : Phase) (vouching : Bool) :
    Touched s (s.move c phase) c vouching where
  allow := rfl
  conns := fun _ hc => Function.update_of_ne hc ..
  log := ⟨none, rfl, fun e he => absurd he (Option.not_mem_none e)⟩

theorem touched_note (s : State) (c : Nat) (phase : Phase) (entry : Entry)
    (h : entry.vouches = true → vouching = true) :
    Touched s ((s.move c phase).note entry) c vouching where
  allow := rfl
  conns := fun _ hc => Function.update_of_ne hc ..
  log := ⟨some entry, rfl, fun _ he => Option.some.inj he ▸ h⟩

/-- The tables of the permits and of the active map are read nowhere in `Touched`. -/
theorem Touched.tables (h : Touched s s' c vouching) (active : List (Nat × String))
    (sessions handshakes : List Nat) (next : Nat) :
    Touched s { s' with
      active := active, sessions := sessions, handshakes := handshakes, next := next } c
      vouching where
  allow := h.allow
  conns := h.conns
  log := h.log

theorem touched_check (c : Nat) (text : String) (id : Nat) (direction : Direction)
    (frame : Bytes) (admitted : Bool) :
    Touched s (s.check c text id direction frame admitted) c false := by
  unfold State.check
  split
  · exact touched_note _ _ _ _ (by simp [Entry.vouches])
  · exact touched_move ..

/-- The branches of `connection` are moves, with an entry or without, and updates of tables. -/
theorem connection_touches {e : Event} (hc : e.conn? = some c)
    (hs : connection config P s e = some s') : Touched s s' c e.vouches := by
  cases e with
  | admin line saving => cases hc
  | reply task sent => cases hc
  | sign text url origin nonce expires => cases hc
  | fail c' =>
    obtain rfl := Option.some.inj hc
    obtain ⟨phase, -, rfl⟩ := Option.map_eq_some_iff.mp hs
    exact touched_move s c' phase false
  | _ =>
    obtain rfl := Option.some.inj hc
    simp only [connection] at hs
    repeat' split at hs
    all_goals first
      | exact Option.some.inj hs ▸ touched_move ..
      | exact Option.some.inj hs ▸ touched_note _ _ _ _ (by
          simp [Entry.vouches, Event.vouches])
      | exact Option.some.inj hs ▸ (touched_move ..).tables ..
      | exact Option.some.inj hs ▸ (touched_note _ _ _ _ (by simp [Entry.vouches])).tables ..
      | exact Option.some.inj hs ▸ touched_check ..
      | cases hs

end Touched

end My98.Relay
