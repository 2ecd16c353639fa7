/-
  My98.Relay.AdapterSession — the latest attempt of the adapter is a machine of its own
  (`RelayNetworkAdapter` of `src/browser/relay-network.js`).

  A `Session` has the variables of the latest attempt and those that it shares with the adapter, and
  nothing of the attempts before it.  Whatever the handlers of an earlier attempt are called with
  leaves the session as it is, as their first line is `current()`.

    • `Move`        — all that can happen to a session;
    • `step_moves`  — the machine is a session that moves, until it is destroyed;
    • `step_over`   — and then nothing happens any more.
-/
import My98.Relay.AdapterMachine

namespace My98.Relay.Adapter

open My98.Lib My98.Crypto

variable {P : Primitives} {client : Client P}

/-! ## §1. Sessions. -/

structure Session where
  generation : Nat
  ready : Bool
  url : String
  socket : Option Nat
  retryTimer : Option Nat
  authTimer : Option Nat
  timers : List (Nat × Alarm)
  nextTimer : Nat
  wait : Wait
  made : Option Bytes
  phase : ClientPhase
  readyState : ReadyState
  signing : Nat
  log : List Entry

def State.session (s : State) : Session :=
  { generation := s.generation, ready := s.ready, url := s.url, socket := s.socket,
    retryTimer := s.retryTimer, authTimer := s.authTimer, timers := s.timers, nextTimer := s.nextTimer,
    wait := s.waits s.generation, made := s.made s.generation, phase := s.phase s.generation,
    readyState := s.readyState s.generation, signing := s.signing s.generation, log := s.log }

def without (timers : List (Nat × Alarm)) (id : Option Nat) : List (Nat × Alarm) :=
  timers.filter fun t => some t.1 ≠ id

namespace Session

/-- A new attempt, with whatever its variables are before they are declared. -/
def attempt (x : Session) (phase : ClientPhase) (readyState : ReadyState) (signing : Nat) : Session :=
  { x with
    generation := x.generation + 1, ready := false
    timers := without (without x.timers x.retryTimer) x.authTimer
    wait := .key, made := none, phase, readyState, signing
    log := .attempt (x.generation + 1) :: x.log }

def dial (x : Session) (publicKey : Bytes) (url : String) : Session :=
  { x with
    url, wait := .nothing, socket := some x.generation, made := some publicKey, phase := .hello,
    readyState := .connecting, signing := 0
    timers := x.timers ++ [(x.nextTimer, .auth x.generation)], nextTimer := x.nextTimer + 1
    authTimer := some x.nextTimer
    log := .created x.generation url :: x.log }

def reconnect (x : Session) (delay : Nat) : Session :=
  { x with
    ready := false, timers := x.timers ++ [(x.nextTimer, .reconnect delay)], nextTimer := x.nextTimer + 1
    retryTimer := some x.nextTimer }

end Session

/-- **What can happen to a session.**  `standard` is the order of the standard, which some of the moves
    need. -/
inductive Move (client : Client P) (standard : Prop) (x : Session) : Session → Prop
  | stay : Move client standard x x
  | retry (phase : ClientPhase) (readyState : ReadyState) (signing : Nat) :
      Move client standard x
        (Session.attempt { x with log := .retry :: x.log } phase readyState signing)
  | again (id delay : Nat) (h : (id, .reconnect delay) ∈ x.timers) (phase : ClientPhase)
      (readyState : ReadyState) (signing : Nat) :
      Move client standard x
        (Session.attempt { x with timers := without x.timers (some id) } phase readyState signing)
  | expire (id : Nat) (readyState : ReadyState)
      (h : readyState = x.readyState ∨ readyState = x.readyState.close) :
      Move client standard x { x with timers := without x.timers (some id), readyState }
  | shut : Move client standard x { x with readyState := x.readyState.close }
  | discover (publicKey : Bytes) (h : x.wait = .key) :
      Move client standard x { x with wait := .url publicKey }
  | dial (publicKey : Bytes) (url : String) (h : x.wait ≠ .nothing) :
      Move client standard x (x.dial publicKey url)
  | undialled (url : String) (delay : Nat) (h : x.wait ≠ .nothing) :
      Move client standard x (Session.reconnect { x with wait := .nothing, url } delay)
  | hello (publicKey : Bytes) (readyState : ReadyState) (h : x.made = some publicKey)
      (hopen : standard → x.readyState = .connecting) :
      Move client standard x
        { x with readyState, log := .hello x.generation publicKey :: x.log }
  | violation (readyState : ReadyState) (h : x.made.isSome = true)
      (hopen : standard → x.readyState ≠ .closed)
      (hclose : readyState = .closing ∨ readyState = .closed) :
      Move client standard x
        { x with readyState, phase := .rejected, log := .violation x.generation :: x.log }
  | deliver (frame : Bytes) (h : x.ready = true) :
      Move client standard x { x with log := .delivered x.generation frame :: x.log }
  | spill (frame : Bytes) (h : x.ready = true) (readyState : ReadyState)
      (hclose : readyState = x.readyState.close) :
      Move client standard x
        { x with readyState, phase := .rejected, log := .delivered x.generation frame :: x.log }
  | challenge (message : Json) (challenge : Challenge) (now : Int) (h : x.made.isSome = true)
      (hopen : standard → x.readyState ≠ .connecting)
      (hmessage : { client with url := x.url }.onMessage x.phase message now = (.signing, some challenge)) :
      Move client standard x
        { x with
          phase := .signing, signing := x.signing + 1
          log := .challenge x.generation message challenge :: x.log }
  | ready (h : x.made.isSome = true) (hphase : x.phase = .authenticated) :
      Move client standard x
        { x with
          phase := .ready, ready := true, timers := without x.timers x.authTimer
          log := .ready x.generation :: x.log }
  | unsigned (readyState : ReadyState) (hclose : readyState = x.readyState.close) :
      Move client standard x { x with phase := .rejected, readyState, signing := x.signing - 1 }
  | authenticate (signature : Bytes) (h : 0 < x.signing) (hopen : x.readyState = .open) :
      Move client standard x
        { x with
          phase := .authenticated, signing := x.signing - 1
          log := .authenticate x.generation signature :: x.log }
  | late : Move client standard x { x with signing := x.signing - 1 }
  | refused (h : x.made.isSome = true) (hopen : standard → x.readyState ≠ .closed) :
      Move client standard x
        { x with
          ready := false, readyState := .closed, timers := without x.timers x.authTimer
          log := .refused x.generation :: x.log }
  | ended (h : x.phase = .rejected) :
      Move client standard x
        { x with ready := false, readyState := .closed, timers := without x.timers x.authTimer }
  | dropped (delay : Nat) (h : x.made.isSome = true) (hphase : x.phase ≠ .rejected)
      (hopen : standard → x.readyState ≠ .closed) :
      Move client standard x
        (Session.reconnect
          { x with readyState := .closed, timers := without x.timers x.authTimer } delay)
  | send (frame : Bytes) (k : Nat) (h : x.ready = true) (hsocket : x.socket = some k) :
      Move client standard x { x with log := .sent k frame :: x.log }

/-! ## §2. The machine is a session that moves. -/

section Simulation

variable {s s' : State} {e : Event} {k : Nat}

/-- The latest attempt is the current one, until the adapter is destroyed. -/
theorem current_iff (h : s.closed = false) : s.current k = true ↔ k = s.generation := by
  unfold State.current
  rw [h, Bool.not_false, Bool.and_true, decide_eq_true_eq]

/-- Nothing that is kept for another attempt is in the session. -/
theorem session_of_ne (h : k ≠ s.generation) (wait : Wait) (readyState : ReadyState) (signing : Nat) :
    State.session { s with waits := Function.update s.waits k wait } = s.session ∧
    State.session { s with readyState := Function.update s.readyState k readyState } = s.session ∧
    State.session { s with signing := Function.update s.signing k signing } = s.session := by
  have hne : s.generation ≠ k := fun heq => h heq.symm
  refine ⟨?_, ?_, ?_⟩
  · unfold State.session
    dsimp only
    rw [Function.update_of_ne hne]
  · unfold State.session
    dsimp only
    rw [Function.update_of_ne hne]
  · unfold State.session
    dsimp only
    rw [Function.update_of_ne hne]

/-- Closing a socket changes `readyState` and nothing else. -/
theorem closeSocket_eq (s : State) : ∃ readyState, s.closeSocket = { s with readyState } := by
  unfold State.closeSocket
  split
  · exact ⟨s.readyState, rfl⟩
  · exact ⟨_, rfl⟩

/-- `connect` begins a new session. -/
theorem session_connect (h : s.closed = false) :
    s.connect.closed = false ∧
      ∃ phase readyState signing, s.connect.session = s.session.attempt phase readyState signing := by
  obtain ⟨readyState, hclose⟩ := closeSocket_eq
    { (s.clearTimeout s.retryTimer).clearTimeout s.authTimer with
      generation := s.generation + 1, ready := false }
  unfold State.connect
  dsimp only [State.clearTimeout] at hclose ⊢
  rw [hclose, if_neg]
  · refine ⟨h, s.phase (s.generation + 1), readyState (s.generation + 1), s.signing (s.generation + 1), ?_⟩
    unfold State.session Session.attempt State.abort without
    dsimp only
    rw [Function.update_self, Function.update_self]
  · show ¬s.closed = true
    rw [h]
    exact Bool.false_ne_true

/-- `reconnect` arms one timer. -/
theorem session_reconnect (h : s.closed = false) :
    (s.reconnect s.generation).closed = false ∧
      (s.reconnect s.generation).session = s.session.reconnect s.delay := by
  unfold State.reconnect
  rw [if_neg]
  · exact ⟨h, rfl⟩
  · rw [h]
    rintro (hno | hno)
    · cases hno
    · exact hno rfl

/-- An attempt that was superseded does not reconnect. -/
theorem reconnect_of_ne (h : k ≠ s.generation) : s.reconnect k = s := by
  unfold State.reconnect
  rw [if_pos (Or.inr h)]

/-- A socket is made for the session. -/
theorem session_dial (h : s.closed = false) (hw : s.waits s.generation = .nothing) (publicKey : Bytes)
    (url : String) :
    (s.dial s.generation publicKey url false).closed = false ∧
      (s.dial s.generation publicKey url false).session = s.session.dial publicKey url := by
  refine ⟨h, ?_⟩
  unfold State.dial State.setTimeout State.session Session.dial
  dsimp only
  rw [if_neg Bool.false_ne_true]
  dsimp only
  rw [hw, Function.update_self, Function.update_self, Function.update_self, Function.update_self]

/-- **The adapter is destroyed.** -/
theorem destroy_open (h : s.closed = false) (update : Bool) :
    (s.destroy update).closed = true ∧ (s.destroy update).ready = false ∧
      (s.destroy update).log = .destroy :: s.log ∧
      (s.destroy update).timers = without (without s.timers s.retryTimer) s.authTimer := by
  obtain ⟨readyState, hclose⟩ := closeSocket_eq
    (State.clearTimeout
      (State.clearTimeout
        { s with
          closed := true, ready := false, generation := s.generation + 1, log := .destroy :: s.log }
        s.retryTimer)
      s.authTimer)
  have hopen : ¬s.closed = true := by
    rw [h]
    exact Bool.false_ne_true
  unfold State.destroy
  rw [if_neg hopen]
  dsimp only
  rw [hclose]
  cases update with
  | true => exact ⟨rfl, rfl, rfl, rfl⟩
  | false => exact ⟨rfl, rfl, rfl, rfl⟩

/-- The last lines of `onmessage`. -/
theorem session_reject (h : s.closed = false) :
    (s.reject s.generation).closed = false ∧
      (s.reject s.generation).session =
        { s.session with phase := .rejected, readyState := s.session.readyState.close } := by
  refine ⟨h, ?_⟩
  unfold State.reject State.close State.session
  dsimp only
  rw [Function.update_self, Function.update_self]

/-- A violation is logged before the socket is closed. -/
theorem session_violation (h : s.closed = false) :
    (s.violation s.generation).closed = false ∧
      (s.violation s.generation).session =
        { s.session with
          phase := .rejected, readyState := s.session.readyState.close
          log := .violation s.generation :: s.log } :=
  session_reject (s := { s with log := .violation s.generation :: s.log }) h

/-- The session moves, or the adapter is destroyed. -/
def Goes (client : Client P) (standard : Prop) (s s' : State) : Prop :=
  (s'.closed = false ∧ Move client standard s.session s'.session) ∨
  (s'.closed = true ∧ s'.ready = false ∧ s'.log = .destroy :: s.log ∧
    s'.timers = without (without s.timers s.retryTimer) s.authTimer)

variable {standard : Prop}

/-- A move, given with the session that it leads to. -/
theorem goes_move (h : s'.closed = false) {x : Session} (hx : s'.session = x)
    (hmove : Move client standard s.session x) : Goes client standard s s' :=
  Or.inl ⟨h, hx ▸ hmove⟩

/-- Nothing of the session has changed. -/
theorem goes_stay (h : s'.closed = false) (hx : s'.session = s.session) : Goes client standard s s' :=
  goes_move h hx .stay

/-- An attempt ends before it has a socket. -/
theorem goes_undialled (h : s.closed = false) (hwait : s.session.wait ≠ .nothing)
    (controller : Option Nat) (url : String) :
    Goes client standard s
      (State.reconnect
        { s with waits := Function.update s.waits s.generation .nothing, controller, url } s.generation) := by
  obtain ⟨hclosed, hsession⟩ := session_reconnect (s := { s with
    waits := Function.update s.waits s.generation .nothing, controller, url }) h
  refine goes_move hclosed hsession ?_
  have hmove : Move client standard s.session _ := .undialled url s.delay hwait
  unfold State.session at hmove ⊢
  dsimp only at hmove ⊢
  rw [Function.update_self]
  exact hmove

/-- It has one, or the browser throws. -/
theorem goes_dial (h : s.closed = false) (hwait : s.session.wait ≠ .nothing)
    (controller : Option Nat) (publicKey : Bytes) (url : String) (throws : Bool) :
    Goes client standard s
      (State.dial { s with waits := Function.update s.waits s.generation .nothing, controller }
        s.generation publicKey url throws) := by
  cases throws with
  | true => exact goes_undialled h hwait controller url
  | false =>
    obtain ⟨hclosed, hsession⟩ := session_dial (s := { s with
      waits := Function.update s.waits s.generation .nothing, controller }) h (Function.update_self _ _ _)
      publicKey url
    exact goes_move hclosed hsession (.dial publicKey url hwait)

/-- The check behind each `await` passes for the latest attempt. -/
theorem not_superseded (h : s.closed = false) : ¬(s.generation ≠ s.generation ∨ s.closed = true) := by
  rw [h]
  rintro (hno | hno)
  · exact hno rfl
  · cases hno

/-- `connect` goes on with the public key. -/
theorem goes_key (h : s.closed = false) (hw : s.waits k = .key) (result : Option Bytes) (throws : Bool) :
    Goes client standard s
      (State.onKey client { s with waits := Function.update s.waits k .nothing } k result throws) := by
  unfold State.onKey
  by_cases hk : k = s.generation
  · subst hk
    have hwait : s.session.wait ≠ .nothing := by
      intro hno
      cases hw.symm.trans hno
    cases result with
    | none =>
      dsimp only
      rw [if_pos rfl]
      exact Or.inr (destroy_open (s := { s with
        waits := Function.update s.waits s.generation .nothing, status := .identityClosed }) h false)
    | some publicKey =>
      dsimp only
      rw [if_neg (not_superseded h)]
      split
      · exact goes_dial h hwait (some s.generation) publicKey client.url throws
      · refine goes_move (x := { s.session with wait := .url publicKey }) h ?_ (.discover publicKey hw)
        unfold State.session
        dsimp only
        rw [Function.update_self]
  · obtain ⟨hsession, -, -⟩ := session_of_ne hk .nothing .closed 0
    cases result with
    | none =>
      dsimp only
      rw [if_neg hk]
      exact goes_stay h hsession
    | some publicKey =>
      dsimp only
      rw [if_pos (Or.inl hk)]
      exact goes_stay h hsession

/-- `connect` goes on with the URL. -/
theorem goes_url (h : s.closed = false) {publicKey : Bytes} (hw : s.waits k = .url publicKey)
    (result : Option String) (throws : Bool) :
    Goes client standard s
      (State.onUrl { s with waits := Function.update s.waits k .nothing } k publicKey result throws) := by
  unfold State.onUrl
  by_cases hk : k = s.generation
  · subst hk
    have hwait : s.session.wait ≠ .nothing := by
      intro hno
      cases hw.symm.trans hno
    cases result with
    | none => exact goes_undialled h hwait s.controller s.url
    | some url =>
      dsimp only
      rw [if_neg (not_superseded h)]
      exact goes_dial h hwait s.controller publicKey url throws
  · obtain ⟨hsession, -, -⟩ := session_of_ne hk .nothing .closed 0
    cases result with
    | none =>
      have hsame := reconnect_of_ne (s := { s with waits := Function.update s.waits k .nothing }) hk
      dsimp only
      rw [hsame]
      exact goes_stay h hsession
    | some url =>
      dsimp only
      rw [if_pos (Or.inl hk)]
      exact goes_stay h hsession

/-- The latest attempt passes the check of the handlers. -/
theorem current_self (h : s.closed = false) : ¬s.current s.generation = false := by
  rw [(current_iff h).mpr rfl]
  exact fun hno => by cases hno

/-- No earlier attempt passes the check of the handlers. -/
theorem current_of_ne (h : k ≠ s.generation) : s.current k = false := by
  unfold State.current
  rw [decide_eq_false h, Bool.false_and]

/-- The readyState of a session's socket is set. -/
theorem session_readyState (readyState : ReadyState) :
    State.session { s with readyState := Function.update s.readyState s.generation readyState } =
      { s.session with readyState } := by
  unfold State.session
  dsimp only
  rw [Function.update_self]

/-- The socket opens. -/
theorem goes_open (h : s.closed = false) {publicKey : Bytes} (hmade : s.made k = some publicKey)
    (hopen : standard → s.current k = true → s.readyState k = .connecting) (protocol : String) :
    Goes client standard s
      (State.onOpen
        { s with
          readyState :=
            if s.readyState k = .connecting then Function.update s.readyState k .open else s.readyState }
        k publicKey protocol) := by
  obtain ⟨readyState, hready⟩ : ∃ readyState,
      (if s.readyState k = .connecting then Function.update s.readyState k .open else s.readyState) =
        Function.update s.readyState k readyState := by
    split
    · exact ⟨.open, rfl⟩
    · exact ⟨s.readyState k, (Function.update_eq_self k s.readyState).symm⟩
  rw [hready]
  unfold State.onOpen
  by_cases hk : k = s.generation
  · subst hk
    have hconnecting : standard → s.session.readyState = .connecting := fun hstd =>
      hopen hstd ((current_iff h).mpr rfl)
    rw [if_neg (current_self (s := { s with
      readyState := Function.update s.readyState s.generation readyState }) h)]
    split
    · obtain ⟨hclosed, hsession⟩ := session_violation (s := { s with
        readyState := Function.update s.readyState s.generation readyState }) h
      refine goes_move hclosed hsession ?_
      rw [session_readyState]
      refine .violation _ (by rw [show s.session.made = some publicKey from hmade]; rfl) (fun hstd => ?_) ?_
      · rw [hconnecting hstd]
        intro hno
        cases hno
      · cases readyState with
        | closed => exact Or.inr rfl
        | connecting => exact Or.inl rfl
        | «open» => exact Or.inl rfl
        | closing => exact Or.inl rfl
    · refine goes_move (x := { s.session with
        readyState, log := .hello s.generation publicKey :: s.log }) h ?_ (.hello publicKey readyState hmade hconnecting)
      have hsession := session_readyState (s := { s with log := .hello s.generation publicKey :: s.log })
        readyState
      exact hsession
  · obtain ⟨-, hsession, -⟩ := session_of_ne hk .nothing readyState 0
    rw [if_pos (current_of_ne (s := { s with
      readyState := Function.update s.readyState k readyState }) hk)]
    exact goes_stay h hsession

/-- **What a challenge was checked for** before it goes to the signer. -/
theorem onMessage_signing {phase : ClientPhase} {message : Json} {now : Int} {challenge : Challenge}
    (h : client.onMessage phase message now = (.signing, some challenge)) :
    phase = .hello ∧ message.text? "url" = some client.url ∧ message.text? "origin" = some client.origin ∧
      challenge.url = client.url ∧ challenge.origin = client.origin := by
  unfold Client.onMessage at h
  split at h
  next hall =>
    obtain ⟨-, hphase, hurl, horigin, -⟩ := hall
    split at h
    · split at h
      · obtain ⟨-, hsome⟩ := Prod.mk.inj h
        rw [← Option.some.inj hsome]
        exact ⟨hphase, hurl, horigin, rfl, rfl⟩
      · cases h
    · cases h
  · split at h
    · cases h
    · cases h

/-- The relay may say `ready` only once it has the signature. -/
theorem onMessage_ready {phase : ClientPhase} {message : Json} {now : Int} {o : Option Challenge}
    (h : client.onMessage phase message now = (.ready, o)) : phase = .authenticated := by
  unfold Client.onMessage at h
  split at h
  · split at h
    · split at h
      · cases h
      · cases h
    · cases h
  · split at h
    next hall => exact hall.2
    · cases h

/-- A socket that was closed is closing or closed. -/
theorem close_cases (readyState : ReadyState) : readyState.close = .closing ∨ readyState.close = .closed := by
  cases readyState with
  | closed => exact Or.inr rfl
  | connecting => exact Or.inl rfl
  | «open» => exact Or.inl rfl
  | closing => exact Or.inl rfl

/-- A message comes in. -/
theorem goes_message (h : s.closed = false) (hmade : (s.made k).isSome = true)
    (hopen : standard → s.current k = true → s.readyState k = .open ∨ s.readyState k = .closing)
    (data : Data) : Goes client standard s (s.onMessage client k data) := by
  unfold State.onMessage
  by_cases hk : k = s.generation
  · subst hk
    have hflows : standard → s.session.readyState = .open ∨ s.session.readyState = .closing := fun hstd =>
      hopen hstd ((current_iff h).mpr rfl)
    have hviolation : Goes client standard s (s.violation s.generation) := by
      obtain ⟨hclosed, hsession⟩ := session_violation h
      refine goes_move hclosed hsession (.violation _ hmade (fun hstd hno => ?_) (close_cases _))
      rcases hflows hstd with hyes | hyes
      · cases hyes.symm.trans hno
      · cases hyes.symm.trans hno
    rw [if_neg (current_self h)]
    cases data with
    | binary frame throws =>
      dsimp only
      split
      · exact hviolation
      next hframe =>
        have hready : s.session.ready = true := by
          cases hr : s.ready with
          | false => exact absurd (Or.inl hr) hframe
          | true => exact hr
        cases throws with
        | false => exact goes_move h rfl (.deliver frame hready)
        | true =>
          obtain ⟨hclosed, hsession⟩ := session_reject (s := { s with
            log := .delivered s.generation frame :: s.log }) h
          exact goes_move hclosed hsession (.spill frame hready _ rfl)
    | text message now =>
      cases message with
      | none => exact hviolation
      | some message =>
        dsimp only
        split
        next challenge hmessage =>
          refine goes_move (x := { s.session with
            phase := .signing, signing := s.session.signing + 1
            log := .challenge s.generation message challenge :: s.log }) h ?_
            (.challenge message challenge now hmade (fun hstd hno => ?_) hmessage)
          · unfold State.session
            dsimp only
            rw [Function.update_self, Function.update_self]
          · rcases hflows hstd with hyes | hyes
            · cases hyes.symm.trans hno
            · cases hyes.symm.trans hno
        next hmessage =>
          refine goes_move (x := { s.session with
            phase := .ready, ready := true, timers := without s.timers s.authTimer
            log := .ready s.generation :: s.log }) h ?_ (.ready hmade (onMessage_ready hmessage))
          unfold State.session State.clearTimeout without
          dsimp only
          rw [Function.update_self]
        · exact hviolation
  · rw [if_pos (current_of_ne hk)]
    exact goes_stay h rfl

/-- The signer has answered. -/
theorem goes_signature (h : s.closed = false) (hsigning : 0 < s.signing k) (result : Option Bytes) :
    Goes client standard s
      (State.onSignature { s with signing := Function.update s.signing k (s.signing k - 1) } k result) := by
  unfold State.onSignature
  by_cases hk : k = s.generation
  · subst hk
    have hcount : State.session { s with
        signing := Function.update s.signing s.generation (s.signing s.generation - 1) } =
        { s.session with signing := s.session.signing - 1 } := by
      unfold State.session
      dsimp only
      rw [Function.update_self]
    cases result with
    | none =>
      dsimp only
      rw [if_pos ((current_iff (s := { s with
        signing := Function.update s.signing s.generation (s.signing s.generation - 1) }) h).mpr rfl)]
      obtain ⟨hclosed, hsession⟩ := session_reject (s := { s with
        signing := Function.update s.signing s.generation (s.signing s.generation - 1) }) h
      refine goes_move hclosed hsession ?_
      rw [hcount]
      exact .unsigned _ rfl
    | some signature =>
      dsimp only
      split
      · exact goes_move h hcount .late
      next hstill =>
        have hready : s.session.readyState = .open := by
          by_contra hno
          exact hstill (Or.inr hno)
        refine goes_move (x := { s.session with
          phase := .authenticated, signing := s.session.signing - 1
          log := .authenticate s.generation signature :: s.log }) h ?_ (.authenticate signature hsigning hready)
        unfold State.session
        dsimp only
        rw [Function.update_self, Function.update_self]
  · obtain ⟨-, -, hsession⟩ := session_of_ne hk .nothing .closed (s.signing k - 1)
    have hnot := current_of_ne (s := { s with
      signing := Function.update s.signing k (s.signing k - 1) }) hk
    cases result with
    | none =>
      dsimp only
      rw [if_neg (by rw [hnot]; exact Bool.false_ne_true)]
      exact goes_stay h hsession
    | some signature =>
      dsimp only
      rw [if_pos (Or.inl hnot)]
      exact goes_stay h hsession

/-- The socket is closed. -/
theorem goes_close (h : s.closed = false) (hmade : (s.made k).isSome = true)
    (hopen : standard → s.current k = true → s.readyState k ≠ .closed) (code : Nat) :
    Goes client standard s
      (State.onClose { s with readyState := Function.update s.readyState k .closed } k code) := by
  unfold State.onClose
  by_cases hk : k = s.generation
  · subst hk
    have hfirst : standard → s.session.readyState ≠ .closed := fun hstd =>
      hopen hstd ((current_iff h).mpr rfl)
    have hsession := session_readyState (s := { s.clearTimeout s.authTimer with ready := false }) .closed
    rw [if_neg (current_self (s := { s with
      readyState := Function.update s.readyState s.generation .closed }) h)]
    dsimp only
    split
    · refine goes_move (x := { s.session with
        ready := false, readyState := .closed, timers := without s.timers s.authTimer
        log := .refused s.generation :: s.log }) h ?_ (.refused hmade hfirst)
      have hlogged := session_readyState (s := { s.clearTimeout s.authTimer with
        ready := false, log := .refused s.generation :: s.log }) .closed
      exact hlogged
    · split
      next hphase => exact goes_move h hsession (.ended hphase)
      next hphase =>
        obtain ⟨hclosed, hreconnect⟩ := session_reconnect (s := State.clearTimeout { s with
          readyState := Function.update s.readyState s.generation .closed, ready := false } s.authTimer) h
        refine goes_move hclosed hreconnect ?_
        have hmove : Move client standard s.session _ := .dropped s.delay hmade hphase hfirst
        have hsame : State.session (State.clearTimeout { s with
            readyState := Function.update s.readyState s.generation .closed, ready := false } s.authTimer) =
            { s.session with
              ready := false, readyState := .closed, timers := without s.timers s.authTimer } := hsession
        rw [hsame]
        exact hmove
  · obtain ⟨-, hsession, -⟩ := session_of_ne hk .nothing .closed 0
    rw [if_pos (current_of_ne (s := { s with readyState := Function.update s.readyState k .closed }) hk)]
    exact goes_stay h hsession

/-- The browser closes a socket by itself. -/
theorem goes_closing (h : s.closed = false) : Goes client standard s (s.close k) := by
  by_cases hk : k = s.generation
  · subst hk
    exact goes_move h (session_readyState _) .shut
  · exact goes_stay h (session_of_ne hk .nothing (s.readyState k).close 0).2.1

/-- A timer goes off: the session connects again, or its socket is closed. -/
theorem goes_timer (h : s.closed = false) {id : Nat} {t : Nat × Alarm}
    (ht : (s.timers.find? fun t => t.1 = id) = some t) :
    Goes client standard s (State.onAlarm (s.clearTimeout (some id)) t.2) := by
  have hyes := List.find?_some ht
  have hid : t.1 = id := of_decide_eq_true hyes
  have hmem : (id, t.2) ∈ s.session.timers := by
    rw [← hid]
    exact List.mem_of_find?_eq_some ht
  have hcleared : (s.clearTimeout (some id)).session =
      { s.session with timers := without s.session.timers (some id) } := rfl
  unfold State.onAlarm
  cases halarm : t.2 with
  | reconnect delay =>
    rw [halarm] at hmem
    obtain ⟨hclosed, phase, readyState, signing, hsession⟩ :=
      session_connect (s := s.clearTimeout (some id)) h
    rw [hcleared] at hsession
    exact goes_move hclosed hsession (.again id delay hmem phase readyState signing)
  | auth k =>
    dsimp only
    split
    next hfires =>
      have hk : k = s.generation := (current_iff (s := s.clearTimeout (some id)) h).mp hfires.1
      subst hk
      refine goes_move h (session_readyState (s := s.clearTimeout (some id)) _) ?_
      rw [hcleared]
      exact .expire id _ (Or.inr rfl)
    · exact goes_move h hcleared (.expire id s.session.readyState (Or.inl rfl))

/-- The bus sends a frame. -/
theorem goes_send (h : s.closed = false) (frame : Bytes) (bufferedAmount : Nat) :
    Goes client standard s (s.send frame bufferedAmount) := by
  unfold State.send
  split
  · exact goes_stay h rfl
  next k hsocket =>
    split
    · exact goes_stay h rfl
    next hready =>
      split
      · exact goes_stay h rfl
      · refine goes_move h rfl (.send frame k ?_ hsocket)
        by_contra hno
        exact hready (Or.inl (Bool.not_eq_true _ ▸ hno))

/-- **One step**, before the adapter is destroyed. -/
theorem step_moves (h : s.closed = false) (hstep : step client s e = some s') :
    Goes client (Standard s e) s s' := by
  cases e with
  | key k result throws =>
    unfold step at hstep
    dsimp only at hstep
    split at hstep
    next hw =>
      rw [← Option.some.inj hstep]
      exact goes_key h hw result throws
    · cases hstep
  | url k result throws =>
    unfold step at hstep
    dsimp only at hstep
    split at hstep
    next publicKey hw =>
      rw [← Option.some.inj hstep]
      exact goes_url h hw result throws
    · cases hstep
  | «open» k protocol =>
    obtain ⟨publicKey, hmade, rfl⟩ := Option.map_eq_some_iff.mp hstep
    exact goes_open h hmade (fun hstd => hstd) protocol
  | message k data =>
    unfold step at hstep
    dsimp only at hstep
    split at hstep
    next hmade =>
      rw [← Option.some.inj hstep]
      exact goes_message h hmade (fun hstd => hstd) data
    · cases hstep
  | signature k result =>
    unfold step at hstep
    dsimp only at hstep
    split at hstep
    next hsigning =>
      rw [← Option.some.inj hstep]
      exact goes_signature h hsigning result
    · cases hstep
  | close k code =>
    unfold step at hstep
    dsimp only at hstep
    split at hstep
    next hmade =>
      rw [← Option.some.inj hstep]
      exact goes_close h hmade (fun hstd => hstd) code
    · cases hstep
  | closing k =>
    unfold step at hstep
    dsimp only at hstep
    split at hstep
    · rw [← Option.some.inj hstep]
      exact goes_closing h
    · cases hstep
  | timer id =>
    obtain ⟨t, ht, rfl⟩ := Option.map_eq_some_iff.mp hstep
    exact goes_timer h ht
  | send frame bufferedAmount =>
    rw [← Option.some.inj hstep]
    exact goes_send h frame bufferedAmount
  | retry =>
    rw [← Option.some.inj hstep]
    unfold State.retry
    rw [if_neg (by rw [h]; exact Bool.false_ne_true)]
    obtain ⟨hclosed, phase, readyState, signing, hsession⟩ :=
      session_connect (s := { s with delay := 1000, log := .retry :: s.log }) h
    exact goes_move hclosed hsession (.retry phase readyState signing)
  | destroy update =>
    rw [← Option.some.inj hstep]
    exact Or.inr (destroy_open h update)
  | identityClosed =>
    rw [← Option.some.inj hstep]
    exact Or.inr (destroy_open (s := { s with status := .identityClosed }) h false)

/-- `connect` does nothing to a destroyed adapter but clear its timers. -/
theorem connect_closed (h : s.closed = true) :
    s.connect.closed = true ∧ s.connect.ready = false ∧ s.connect.log = s.log ∧
      s.connect.timers = without (without s.timers s.retryTimer) s.authTimer := by
  obtain ⟨readyState, hclose⟩ := closeSocket_eq
    { (s.clearTimeout s.retryTimer).clearTimeout s.authTimer with
      generation := s.generation + 1, ready := false }
  unfold State.connect
  dsimp only [State.clearTimeout] at hclose ⊢
  rw [hclose, if_pos]
  · exact ⟨h, rfl, rfl, rfl⟩
  · exact h

/-- No attempt of a destroyed adapter is the current one. -/
theorem current_closed (h : s.closed = true) : s.current k = false := by
  unfold State.current
  rw [h, Bool.not_true, Bool.and_false]

/-- What is left of a destroyed adapter. -/
def Over (s s' : State) : Prop :=
  s'.closed = true ∧ s'.ready = false ∧ s'.log = s.log ∧ (s.timers = [] → s'.timers = [])

/-- **One step**, after it is destroyed. -/
theorem step_over (h : s.closed = true) (hready : s.ready = false) (hstep : step client s e = some s') :
    Over s s' := by
  have hsame : Over s s := ⟨h, hready, rfl, id⟩
  cases e with
  -- Every handler asks first whether the adapter is closed or its attempt is still the current one.
  | key k result throws =>
    unfold step at hstep
    dsimp only at hstep
    split at hstep
    · rw [← Option.some.inj hstep]
      unfold State.onKey
      cases result with
      | none =>
        dsimp only
        split
        · unfold State.destroy
          rw [if_pos h]
          exact hsame
        · exact hsame
      | some publicKey =>
        dsimp only
        rw [if_pos (Or.inr h)]
        exact hsame
    · cases hstep
  | url k result throws =>
    unfold step at hstep
    dsimp only at hstep
    split at hstep
    · rw [← Option.some.inj hstep]
      unfold State.onUrl
      cases result with
      | none =>
        dsimp only
        unfold State.reconnect
        rw [if_pos (Or.inl h)]
        exact hsame
      | some url =>
        dsimp only
        rw [if_pos (Or.inr h)]
        exact hsame
    · cases hstep
  | «open» k protocol =>
    obtain ⟨publicKey, -, rfl⟩ := Option.map_eq_some_iff.mp hstep
    unfold State.onOpen
    rw [if_pos (current_closed (by exact h))]
    exact hsame
  | message k data =>
    unfold step at hstep
    dsimp only at hstep
    split at hstep
    · rw [← Option.some.inj hstep]
      unfold State.onMessage
      rw [if_pos (current_closed h)]
      exact hsame
    · cases hstep
  | signature k result =>
    unfold step at hstep
    dsimp only at hstep
    split at hstep
    · rw [← Option.some.inj hstep]
      unfold State.onSignature
      -- The counter of signatures may go down all the same.
      have hnot := current_closed (k := k) (s := { s with
        signing := Function.update s.signing k (s.signing k - 1) }) h
      cases result with
      | none =>
        dsimp only
        rw [if_neg (by rw [hnot]; exact Bool.false_ne_true)]
        exact hsame
      | some signature =>
        dsimp only
        rw [if_pos (Or.inl hnot)]
        exact hsame
    · cases hstep
  | close k code =>
    unfold step at hstep
    dsimp only at hstep
    split at hstep
    · rw [← Option.some.inj hstep]
      unfold State.onClose
      rw [if_pos (current_closed (by exact h))]
      exact hsame
    · cases hstep
  | closing k =>
    unfold step at hstep
    dsimp only at hstep
    split at hstep
    · rw [← Option.some.inj hstep]
      exact hsame
    · cases hstep
  | timer id =>
    obtain ⟨t, ht, rfl⟩ := Option.map_eq_some_iff.mp hstep
    have hsome : s.timers ≠ [] := by
      intro hno
      rw [hno] at ht
      cases ht
    unfold State.onAlarm
    cases t.2 with
    -- A timer that was running is taken off the list, and does nothing else.
    | reconnect delay =>
      obtain ⟨hclosed, hquiet, hlog, -⟩ := connect_closed (s := s.clearTimeout (some id)) h
      exact ⟨hclosed, hquiet, hlog, fun hno => absurd hno hsome⟩
    | auth k =>
      have hnot : ¬((s.clearTimeout (some id)).current k = true ∧ (s.clearTimeout (some id)).ready = false) := by
        rw [current_closed (by exact h)]
        rintro ⟨hno, -⟩
        cases hno
      dsimp only
      rw [if_neg hnot]
      exact ⟨h, hready, rfl, fun hno => absurd hno hsome⟩
  | send frame bufferedAmount =>
    rw [← Option.some.inj hstep]
    unfold State.send
    split
    · exact hsame
    · rw [if_pos (Or.inl hready)]
      exact hsame
  | retry =>
    rw [← Option.some.inj hstep]
    unfold State.retry
    rw [if_pos h]
    exact hsame
  | destroy update =>
    rw [← Option.some.inj hstep]
    unfold State.destroy
    rw [if_pos h]
    exact hsame
  | identityClosed =>
    rw [← Option.some.inj hstep]
    unfold State.destroy
    rw [if_pos h]
    exact hsame

end Simulation

end My98.Relay.Adapter
