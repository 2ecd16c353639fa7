/-
  My98.Web.WorkerProtocol — requests, replies and cancellation epochs between the page and the
  disk Worker (`src/disk/web/worker-protocol.js`, and `call`/`cancel` of
  `src/disk/web/client.js`).

  Two threads share a FIFO message channel and, on an isolated page, one 32-bit word of memory.
  `cancel` bumps an epoch, stores it in that word and posts it; `call` takes the epoch it finds,
  waits for `ready` and posts its request with it.  The Worker runs its requests through one
  promise chain and compares the epoch of the active request with BOTH copies it has.

  Every step of either thread is an event, so that a run is an interleaving.  What nobody can
  see at run time (how many cancels were made when `call` ran, how many were handled when a
  request was taken up) is carried along in the fields marked as history.

  Main result: `serialized` — one reply per request in posting order; a request that an already
  handled cancel covers never enters `execute`; a request made after the last cancel never sees
  one.
-/
import Mathlib.Algebra.Order.Ring.Nat
import Mathlib.Tactic.Common
import My98.Lib.Machine

namespace My98.Web.WorkerProtocol

open My98.Lib

/-! ## §1. State. -/

/-- The int32 of `cancelEpoch` and of the shared word. -/
abbrev Epoch := BitVec 32

/-- A call that has taken its epoch and waits for `ready`. -/
structure Calling where
  op : String
  epoch : Epoch
  /-- History: the cancels made before `call` ran. -/
  madeAt : Nat
  deriving DecidableEq

/-- The message `{id, op, args, epoch}`. -/
structure Request where
  id : Nat
  op : String
  epoch : Epoch
  /-- History: the cancels made before `call` ran. -/
  madeAt : Nat
  deriving DecidableEq

inductive Message where
  | configure
  | cancel (epoch : Epoch)
  | request (r : Request)
  deriving DecidableEq

/-- Where the active request stands: before `await this.ready` is over, between setting the
    epoch and the first check, inside `execute`, or in the `catch` with an error code. -/
inductive Phase where
  | awaiting
  | checking
  | executing
  | throwing (code : String)
  deriving DecidableEq

inductive Answer where
  | result
  | error (code : String)
  deriving DecidableEq

/-- The request the promise chain is working on. -/
structure Active where
  request : Request
  phase : Phase
  /-- `activeRequest`: whether its signal is aborted; `none` before it is made. -/
  signal : Option Bool
  /-- History: the cancels handled when the request was taken up. -/
  handledAt : Nat
  /-- History: `execute` was entered, and `cancelled()` returned true inside it. -/
  entered : Bool
  saw : Bool
  deriving DecidableEq

/-- History of a request that was answered. -/
structure Done where
  request : Request
  answer : Answer
  handledAt : Nat
  entered : Bool
  saw : Bool
  aborted : Bool
  /-- The `catch` replaced the error by its own `CANCELLED`. -/
  converted : Bool
  deriving DecidableEq

/-- What the Worker does with a request, as it happens. -/
inductive Entry where
  | execute (r : Request)
  | reply (r : Request) (answer : Answer)
  deriving DecidableEq

structure State where
  /-- The client: its epoch, its id counter and the calls that wait for `ready`. -/
  clientEpoch : Epoch
  next : Nat
  calling : List Calling
  /-- The channel and the shared word. -/
  inflight : List Message
  shared : Epoch
  /-- The Worker. -/
  cancelEpoch : Epoch
  cancelView : Bool
  activeEpoch : Epoch
  sequence : List Request
  active : Option Active
  /-- History: cancels made and handled, requests posted, requests answered, and the log. -/
  cancels : Nat
  handled : Nat
  posted : List Request
  replies : List Done
  log : List Entry
  deriving DecidableEq

/-- After `ready`; an isolated page has posted its buffer before anything else. -/
def init (isolated : Bool) : State where
  clientEpoch := 0
  next := 0
  calling := []
  inflight := if isolated then [.configure] else []
  shared := 0
  cancelEpoch := 0
  cancelView := false
  activeEpoch := 0
  sequence := []
  active := none
  cancels := 0
  handled := 0
  posted := []
  replies := []
  log := []

/-- `cancelled()`. -/
def State.cancelled (s : State) : Bool :=
  s.activeEpoch != s.cancelEpoch || (s.cancelView && s.shared != s.activeEpoch)

/-! ## §2. Steps. -/

/-- How `execute` ends: with a result that can be posted, with one that cannot be cloned, or
    with an error. -/
inductive Settled where
  | result
  | unclonable
  | error (code : String)
  deriving DecidableEq

inductive Event where
  /-- `call(op)`, up to its `await`. -/
  | call (op : String)
  /-- The rest of the first waiting `call`; `clones` is false when `postMessage` throws. -/
  | post (clones : Bool)
  /-- `cancel()`. -/
  | cancel
  /-- The Worker handles the next message. -/
  | deliver
  /-- The promise chain takes up the next request. -/
  | dequeue
  /-- `await this.ready` is over: the epoch is set and the controller made. -/
  | start
  /-- The check before `execute`. -/
  | check
  /-- Code inside `execute` calls `cancelled()`. -/
  | observe
  | settle (how : Settled)
  /-- The `catch` answers. -/
  | reply
  deriving DecidableEq

/-- `handle(data)`. -/
def State.handle (s : State) : Message → State
  | .configure => { s with cancelView := true }
  | .cancel epoch =>
    { s with
      cancelEpoch := epoch
      handled := s.handled + 1
      active := s.active.map fun a => { a with signal := a.signal.map fun _ => true } }
  | .request r => { s with sequence := s.sequence ++ [r] }

/-- The active request ends: `postMessage`, then the `finally`. -/
def State.finish (s : State) (a : Active) (answer : Answer) (converted : Bool) : State :=
  { s with
    active := none
    replies := s.replies ++ [{
      request := a.request, answer, handledAt := a.handledAt, entered := a.entered
      saw := a.saw, aborted := a.signal = some true, converted }]
    log := s.log ++ [.reply a.request answer] }

/-- The steps of the active request. -/
def State.advance (s : State) (a : Active) : Event → Option State
  | .start =>
    if a.phase = .awaiting then
      some { s with
        activeEpoch := a.request.epoch
        active := some { a with phase := .checking, signal := some false } }
    else none
  | .check =>
    if a.phase = .checking then
      if s.cancelled then
        some { s with active := some { a with phase := .throwing "CANCELLED" } }
      else
        some { s with
          active := some { a with phase := .executing, entered := true }
          log := s.log ++ [.execute a.request] }
    else none
  | .observe =>
    if a.phase = .executing then
      some { s with active := some { a with saw := a.saw || s.cancelled } }
    else none
  | .settle how =>
    if a.phase = .executing then
      match how with
      | .result => some (s.finish a .result false)
      | .unclonable => some { s with active := some { a with phase := .throwing "DataCloneError" } }
      | .error code => some { s with active := some { a with phase := .throwing code } }
    else none
  | .reply =>
    match a.phase with
    | .throwing code =>
      some (s.finish a (.error (if s.cancelled then "CANCELLED" else code)) s.cancelled)
    | _ => none
  | _ => none

/-- A step of the promise chain's current request, if there is one. -/
def State.work (s : State) (e : Event) : Option State :=
  match s.active with
  | none => none
  | some a => s.advance a e

def step (isolated : Bool) (s : State) : Event → Option State
  | .call op => some { s with calling := s.calling ++ [⟨op, s.clientEpoch, s.cancels⟩] }
  | .post clones =>
    match s.calling with
    | [] => none
    | c :: rest =>
      if clones then
        some { s with
          next := s.next + 1
          calling := rest
          inflight := s.inflight ++ [.request ⟨s.next + 1, c.op, c.epoch, c.madeAt⟩]
          posted := s.posted ++ [⟨s.next + 1, c.op, c.epoch, c.madeAt⟩] }
      else some { s with next := s.next + 1, calling := rest }
  | .cancel =>
    some { s with
      clientEpoch := s.clientEpoch + 1
      shared := if isolated then s.clientEpoch + 1 else s.shared
      inflight := s.inflight ++ [.cancel (s.clientEpoch + 1)]
      cancels := s.cancels + 1 }
  | .deliver =>
    match s.inflight with
    | [] => none
    | m :: rest => some ({ s with inflight := rest }.handle m)
  | .dequeue =>
    match s.active, s.sequence with
    | none, r :: rest =>
      some { s with
        sequence := rest
        active := some {
          request := r, phase := .awaiting, signal := none, handledAt := s.handled
          entered := false, saw := false } }
    | _, _ => none
  | e => s.work e

/-! ## §3. Epochs. -/

/-- The channel carries every cancel that was made and is not handled yet, in order; a request
    was made before the cancels that follow it were. -/
def Flight : Nat → List Message → Nat → Prop
  | handled, [], cancels => handled = cancels
  | handled, .configure :: rest, cancels => Flight handled rest cancels
  | handled, .cancel epoch :: rest, cancels =>
    epoch = BitVec.ofNat 32 (handled + 1) ∧ Flight (handled + 1) rest cancels
  | handled, .request r :: rest, cancels =>
    (r.epoch = BitVec.ofNat 32 r.madeAt ∧ r.madeAt ≤ handled) ∧ Flight handled rest cancels

/-- No more cancellations were handled than were sent. -/
theorem Flight.le {inflight : List Message} : ∀ {handled cancels : Nat},
    Flight handled inflight cancels → handled ≤ cancels := by
  induction inflight with
  | nil =>
    intro handled cancels h
    exact Nat.le_of_eq h
  | cons m rest ih =>
    intro handled cancels h
    cases m with
    | configure => exact ih h
    | cancel epoch =>
      have := ih h.2
      omega
    | request r => exact ih h.2

/-- A request joins the end of the channel. -/
theorem Flight.post {r : Request} (hr : r.epoch = BitVec.ofNat 32 r.madeAt)
    {inflight : List Message} : ∀ {handled cancels : Nat}, r.madeAt ≤ cancels →
    Flight handled inflight cancels → Flight handled (inflight ++ [.request r]) cancels := by
  induction inflight with
  | nil =>
    intro handled cancels hle h
    obtain rfl : handled = cancels := h
    exact ⟨⟨hr, hle⟩, rfl⟩
  | cons m rest ih =>
    intro handled cancels hle h
    cases m with
    | configure => exact ih hle h
    | cancel epoch => exact ⟨h.1, ih hle h.2⟩
    | request r' => exact ⟨h.1, ih hle h.2⟩

/-- A cancel joins the end of the channel. -/
theorem Flight.cancel {inflight : List Message} : ∀ {handled cancels : Nat},
    Flight handled inflight cancels →
    Flight handled (inflight ++ [.cancel (BitVec.ofNat 32 (cancels + 1))]) (cancels + 1) := by
  induction inflight with
  | nil =>
    intro handled cancels h
    obtain rfl : handled = cancels := h
    exact ⟨rfl, rfl⟩
  | cons m rest ih =>
    intro handled cancels h
    cases m with
    | configure => exact ih h
    | cancel epoch => exact ⟨h.1, ih h.2⟩
    | request r => exact ⟨h.1, ih h.2⟩

/-- What holds of the epochs on both sides and of everything that waits. -/
structure Epochs (isolated : Bool) (s : State) : Prop where
  client : s.clientEpoch = BitVec.ofNat 32 s.cancels
  worker : s.cancelEpoch = BitVec.ofNat 32 s.handled
  shared : isolated = true → s.shared = s.clientEpoch
  view : s.cancelView = true ∨ .configure ∈ s.inflight → isolated = true
  flight : Flight s.handled s.inflight s.cancels
  calling : ∀ c ∈ s.calling, c.epoch = BitVec.ofNat 32 c.madeAt ∧ c.madeAt ≤ s.cancels
  sequence : ∀ r ∈ s.sequence, r.epoch = BitVec.ofNat 32 r.madeAt ∧ r.madeAt ≤ s.handled

/-- The Worker at its start. -/
theorem epochs_init (isolated : Bool) : Epochs isolated (init isolated) where
  client := rfl
  worker := rfl
  shared _ := rfl
  view := by cases isolated <;> simp [init]
  flight := by cases isolated <;> rfl
  calling := by simp [init]
  sequence := by simp [init]

/-- The epoch is counted modulo `2 ^ 32`. -/
theorem ofNat_succ (n : Nat) : BitVec.ofNat 32 n + 1 = BitVec.ofNat 32 (n + 1) := by
  simp [BitVec.ofNat_add]

/-- A cancellation moves the epoch of the page. -/
theorem Epochs.cancel {isolated : Bool} {s s' : State} (h : Epochs isolated s)
    (hs : step isolated s .cancel = some s') : Epochs isolated s' := by
  obtain rfl := Option.some.inj hs
  have hnext : s.clientEpoch + 1 = BitVec.ofNat 32 (s.cancels + 1) := by
    rw [h.client, ofNat_succ]
  refine ⟨hnext, h.worker, ?_, ?_, ?_, ?_, h.sequence⟩
  · intro hiso
    exact if_pos hiso
  · intro hv
    refine h.view (hv.imp id ?_)
    intro hmem
    simpa using hmem
  · dsimp only
    rw [hnext]
    exact h.flight.cancel
  · intro c hc
    obtain ⟨hepoch, hle⟩ := h.calling c hc
    exact ⟨hepoch, Nat.le_succ_of_le hle⟩

/-- A call takes the epoch of the page along. -/
theorem Epochs.call {isolated : Bool} {s s' : State} {op : String} (h : Epochs isolated s)
    (hs : step isolated s (.call op) = some s') : Epochs isolated s' := by
  obtain rfl := Option.some.inj hs
  refine ⟨h.client, h.worker, h.shared, h.view, h.flight, ?_, h.sequence⟩
  intro c hc
  obtain hc | hc := List.mem_append.mp hc
  · exact h.calling c hc
  · obtain rfl := List.mem_singleton.mp hc
    exact ⟨h.client, Nat.le_refl _⟩

/-- What posting the first waiting call does. -/
theorem post_cases {isolated clones : Bool} {s s' : State}
    (hs : step isolated s (.post clones) = some s') :
    ∃ c rest, s.calling = c :: rest ∧
      ((s' = { s with
          next := s.next + 1
          calling := rest
          inflight := s.inflight ++ [.request ⟨s.next + 1, c.op, c.epoch, c.madeAt⟩]
          posted := s.posted ++ [⟨s.next + 1, c.op, c.epoch, c.madeAt⟩] }) ∨
        s' = { s with next := s.next + 1, calling := rest }) := by
  simp only [step] at hs
  split at hs
  · cases hs
  next c rest hcalling =>
    refine ⟨c, rest, hcalling, ?_⟩
    split at hs
    · exact .inl (Option.some.inj hs).symm
    · exact .inr (Option.some.inj hs).symm

/-- It is posted with that epoch, whatever the page has counted since. -/
theorem Epochs.post {isolated clones : Bool} {s s' : State} (h : Epochs isolated s)
    (hs : step isolated s (.post clones) = some s') : Epochs isolated s' := by
  obtain ⟨c, rest, hcalling, rfl | rfl⟩ := post_cases hs
  · have hc := h.calling c (by rw [hcalling]; exact List.mem_cons_self)
    refine ⟨h.client, h.worker, h.shared, ?_, h.flight.post hc.1 hc.2, ?_, h.sequence⟩
    · intro hv
      refine h.view (hv.imp id ?_)
      intro hmem
      simpa using hmem
    · intro c' hc'
      exact h.calling c' (by rw [hcalling]; exact List.mem_cons_of_mem _ hc')
  · refine ⟨h.client, h.worker, h.shared, h.view, h.flight, ?_, h.sequence⟩
    intro c' hc'
    exact h.calling c' (by rw [hcalling]; exact List.mem_cons_of_mem _ hc')

/-- The Worker handles the first message of the channel. -/
theorem deliver_cases {isolated : Bool} {s s' : State}
    (hs : step isolated s .deliver = some s') :
    ∃ m rest, s.inflight = m :: rest ∧ s' = State.handle { s with inflight := rest } m := by
  simp only [step] at hs
  split at hs
  · cases hs
  next m rest hflight => exact ⟨m, rest, hflight, (Option.some.inj hs).symm⟩

/-- A message that is delivered moves the epoch of the Worker, if it is a cancellation. -/
theorem Epochs.deliver {isolated : Bool} {s s' : State} (h : Epochs isolated s)
    (hs : step isolated s .deliver = some s') : Epochs isolated s' := by
  obtain ⟨m, rest, hflight, rfl⟩ := deliver_cases hs
  have hf := h.flight
  rw [hflight] at hf
  have hview : .configure ∈ rest → isolated = true := by
    intro hmem
    exact h.view (.inr (by rw [hflight]; exact List.mem_cons_of_mem _ hmem))
  cases m with
  | configure =>
    refine ⟨h.client, h.worker, h.shared, ?_, hf, h.calling, h.sequence⟩
    intro _
    exact h.view (.inr (by rw [hflight]; exact List.mem_cons_self))
  | cancel epoch =>
    refine ⟨h.client, hf.1, h.shared, fun hv => hv.elim (fun hv => h.view (.inl hv)) hview, hf.2,
      h.calling, ?_⟩
    intro r hr
    obtain ⟨hepoch, hle⟩ := h.sequence r hr
    exact ⟨hepoch, Nat.le_succ_of_le hle⟩
  | request r =>
    refine ⟨h.client, h.worker, h.shared, fun hv => hv.elim (fun hv => h.view (.inl hv)) hview,
      hf.2, h.calling, ?_⟩
    intro r' hr'
    obtain hr' | hr' := List.mem_append.mp hr'
    · exact h.sequence r' hr'
    · obtain rfl := List.mem_singleton.mp hr'
      exact hf.1

/-- What the next request of the queue does. -/
theorem dequeue_cases {isolated : Bool} {s s' : State}
    (hs : step isolated s .dequeue = some s') :
    ∃ r rest, s.active = none ∧ s.sequence = r :: rest ∧
      s' = { s with
        sequence := rest
        active := some {
          request := r, phase := .awaiting, signal := none, handledAt := s.handled
          entered := false, saw := false } } := by
  simp only [step] at hs
  split at hs
  next r rest hactive hseq => exact ⟨r, rest, hactive, hseq, (Option.some.inj hs).symm⟩
  · cases hs

/-- A request that is taken from the queue keeps the epochs. -/
theorem Epochs.dequeue {isolated : Bool} {s s' : State} (h : Epochs isolated s)
    (hs : step isolated s .dequeue = some s') : Epochs isolated s' := by
  obtain ⟨r, rest, -, hseq, rfl⟩ := dequeue_cases hs
  refine ⟨h.client, h.worker, h.shared, h.view, h.flight, h.calling, ?_⟩
  intro r' hr'
  exact h.sequence r' (by rw [hseq]; exact List.mem_cons_of_mem _ hr')

/-- **The steps of the active request.**  It starts, is refused or enters `execute`, looks at
    `cancelled()`, throws, or is answered. -/
inductive Advances (s : State) (a : Active) : State → Prop
  | start (hp : a.phase = .awaiting) : Advances s a { s with
      activeEpoch := a.request.epoch
      active := some { a with phase := .checking, signal := some false } }
  | refuse (hp : a.phase = .checking) (hc : s.cancelled = true) : Advances s a { s with
      active := some { a with phase := .throwing "CANCELLED" } }
  | enter (hp : a.phase = .checking) (hc : s.cancelled = false) : Advances s a { s with
      active := some { a with phase := .executing, entered := true }
      log := s.log ++ [.execute a.request] }
  | observe (hp : a.phase = .executing) : Advances s a { s with
      active := some { a with saw := a.saw || s.cancelled } }
  | «throw» (hp : a.phase = .executing) (code : String) : Advances s a { s with
      active := some { a with phase := .throwing code } }
  | result (hp : a.phase = .executing) : Advances s a (s.finish a .result false)
  | error {code : String} (hp : a.phase = .throwing code) : Advances s a
      (s.finish a (.error (if s.cancelled then "CANCELLED" else code)) s.cancelled)

/-- What the request at work may do. -/
theorem advance_cases {s s' : State} {a : Active} {e : Event} (h : s.advance a e = some s') :
    Advances s a s' := by
  unfold State.advance at h
  split at h
  · split at h
    next hp =>
      obtain rfl := Option.some.inj h
      exact .start hp
    · cases h
  · split at h
    next hp =>
      split at h
      next hc =>
        obtain rfl := Option.some.inj h
        exact .refuse hp hc
      next hc =>
        obtain rfl := Option.some.inj h
        exact .enter hp (Bool.eq_false_iff.mpr hc)
    · cases h
  · split at h
    next hp =>
      obtain rfl := Option.some.inj h
      exact .observe hp
    · cases h
  · split at h
    next hp =>
      split at h
      · obtain rfl := Option.some.inj h
        exact .result hp
      · obtain rfl := Option.some.inj h
        exact .throw hp _
      · obtain rfl := Option.some.inj h
        exact .throw hp _
    · cases h
  · split at h
    next code hp =>
      obtain rfl := Option.some.inj h
      exact .error hp
    · cases h
  · cases h

/-- None of it moves an epoch. -/
theorem Epochs.advances {isolated : Bool} {s s' : State} {a : Active} (h : Epochs isolated s)
    (hs : Advances s a s') : Epochs isolated s' := by
  cases hs <;>
    exact ⟨h.client, h.worker, h.shared, h.view, h.flight, h.calling, h.sequence⟩

/-- Any other event is a step of the active request. -/
theorem work_cases {s s' : State} {e : Event} (h : s.work e = some s') :
    ∃ a, s.active = some a ∧ Advances s a s' := by
  unfold State.work at h
  split at h
  · cases h
  next a ha => exact ⟨a, ha, advance_cases h⟩

/-- A property that the client's and the channel's steps, and the steps of the active request
    keep, every step keeps. -/
theorem step_induction {isolated : Bool} {I : State → Prop} {s s' : State} {e : Event}
    (hs : step isolated s e = some s')
    (call : ∀ op, step isolated s (.call op) = some s' → I s')
    (post : ∀ clones, step isolated s (.post clones) = some s' → I s')
    (cancel : e = .cancel → step isolated s .cancel = some s' → I s')
    (deliver : step isolated s .deliver = some s' → I s')
    (dequeue : step isolated s .dequeue = some s' → I s')
    (advance : ∀ a, s.active = some a → Advances s a s' → I s') : I s' := by
  have hwork : s.work e = some s' → I s' := by
    intro h
    obtain ⟨a, ha, hadv⟩ := work_cases h
    exact advance a ha hadv
  cases e with
  | call op => exact call op hs
  | post clones => exact post clones hs
  | cancel => exact cancel rfl hs
  | deliver => exact deliver hs
  | dequeue => exact dequeue hs
  | start => exact hwork hs
  | check => exact hwork hs
  | observe => exact hwork hs
  | settle how => exact hwork hs
  | reply => exact hwork hs

/-- Every event keeps the epochs. -/
theorem Epochs.step {isolated : Bool} {s s' : State} {e : Event} (h : Epochs isolated s)
    (hs : step isolated s e = some s') : Epochs isolated s' :=
  step_induction hs (fun _ => h.call) (fun _ => h.post) (fun _ => h.cancel) h.deliver h.dequeue
    fun _ _ => h.advances

/-! ## §4. One reply per request, in posting order. -/

/-- The requests among messages. -/
def requests (messages : List Message) : List Request :=
  messages.filterMap fun m =>
    match m with
    | .request r => some r
    | _ => none

/-- What the log shows of a request that was answered. -/
def Done.entries (d : Done) : List Entry :=
  (if d.entered then [.execute d.request] else []) ++ [.reply d.request d.answer]

/-- What the log shows of the active request. -/
def Active.entries (a : Active) : List Entry :=
  if a.entered then [.execute a.request] else []

/-- Every posted request is answered, active, queued or on its way, in this order, and the log
    is made of the answered requests one after another, then the active one. -/
structure Ordered (s : State) : Prop where
  posted : s.posted = s.replies.map (·.request) ++ (s.active.map (·.request)).toList ++
    s.sequence ++ requests s.inflight
  log : s.log = s.replies.flatMap Done.entries ++ (s.active.map Active.entries).getD []
  /-- `execute` is entered at the check and not before. -/
  entered : ∀ a, s.active = some a →
    (a.phase = .awaiting ∨ a.phase = .checking → a.entered = false) ∧
      (a.phase = .executing → a.entered = true)

/-- Nothing is in flight at the start. -/
theorem ordered_init (isolated : Bool) : Ordered (init isolated) where
  posted := by cases isolated <;> rfl
  log := rfl
  entered := by
    intro a ha
    cases ha

/-- The active request is answered. -/
theorem Ordered.finish {s : State} {a : Active} (h : Ordered s) (ha : s.active = some a)
    (answer : Answer) (converted : Bool) : Ordered (s.finish a answer converted) := by
  have hposted := h.posted
  have hlog := h.log
  rw [ha] at hposted hlog
  refine ⟨?_, ?_, ?_⟩
  · show s.posted = _
    rw [hposted]
    simp [State.finish]
  · show s.log ++ [.reply a.request answer] = _
    rw [hlog]
    simp [State.finish, Done.entries, Active.entries]
  · intro a' ha'
    cases ha'

/-- The active request changes, and the log with it. -/
theorem Ordered.change {s s' : State} {a a' : Active} {m : List Entry} (h : Ordered s)
    (ha : s.active = some a) (ha' : s'.active = some a') (hr : a'.request = a.request)
    (hposted : s'.posted = s.posted) (hreplies : s'.replies = s.replies)
    (hseq : s'.sequence = s.sequence) (hflight : s'.inflight = s.inflight)
    (hlog : s'.log = s.log ++ m) (hentries : a'.entries = a.entries ++ m)
    (hentered : (a'.phase = .awaiting ∨ a'.phase = .checking → a'.entered = false) ∧
      (a'.phase = .executing → a'.entered = true)) : Ordered s' := by
  refine ⟨?_, ?_, ?_⟩
  · rw [hposted, h.posted, hreplies, hseq, hflight, ha, ha']
    simp [hr]
  · rw [hlog, h.log, hreplies, ha, ha']
    simp [hentries]
  · intro a'' ha''
    rw [ha'] at ha''
    obtain rfl := Option.some.inj ha''
    exact hentered

/-- The request at work stays in its place. -/
theorem Ordered.advances {s s' : State} {a : Active} (h : Ordered s) (ha : s.active = some a)
    (hs : Advances s a s') : Ordered s' := by
  obtain ⟨hearly, hlate⟩ := h.entered a ha
  cases hs with
  | start hp =>
    exact h.change (m := []) ha rfl rfl rfl rfl rfl rfl (by simp) (by simp [Active.entries])
      ⟨fun _ => hearly (.inl hp), by simp⟩
  | refuse hp hc =>
    exact h.change (m := []) ha rfl rfl rfl rfl rfl rfl (by simp) (by simp [Active.entries])
      ⟨by simp, by simp⟩
  | enter hp hc =>
    exact h.change ha rfl rfl rfl rfl rfl rfl rfl
      (by simp [Active.entries, hearly (.inr hp)]) ⟨by simp, by simp⟩
  | observe hp =>
    exact h.change (m := []) ha rfl rfl rfl rfl rfl rfl (by simp) (by simp [Active.entries])
      ⟨hearly, hlate⟩
  | «throw» hp code =>
    exact h.change (m := []) ha rfl rfl rfl rfl rfl rfl (by simp) (by simp [Active.entries])
      ⟨by simp, by simp⟩
  | result hp => exact h.finish ha _ _
  | error hp => exact h.finish ha _ _

/-- The requests of two stretches of the channel. -/
theorem requests_append (a b : List Message) : requests (a ++ b) = requests a ++ requests b :=
  List.filterMap_append ..

/-- A request that is delivered joins the queue at its end. -/
theorem Ordered.deliver {isolated : Bool} {s s' : State} (h : Ordered s)
    (hs : step isolated s .deliver = some s') : Ordered s' := by
  obtain ⟨m, rest, hflight, rfl⟩ := deliver_cases hs
  have hposted := h.posted
  rw [hflight] at hposted
  cases m with
  | configure => exact ⟨hposted, h.log, h.entered⟩
  | cancel epoch =>
    refine ⟨?_, ?_, ?_⟩
    · show s.posted = _
      rw [hposted]
      simp [State.handle, requests, Function.comp_def]
    · show s.log = _
      rw [h.log]
      simp only [State.handle, Option.map_map]
      rfl
    · intro a' ha'
      obtain ⟨a, ha, rfl⟩ := Option.map_eq_some_iff.mp ha'
      exact h.entered a ha
  | request r =>
    refine ⟨?_, h.log, h.entered⟩
    show s.posted = _
    rw [hposted]
    simp [State.handle, requests]

/-- Every event keeps the order. -/
theorem Ordered.step {isolated : Bool} {s s' : State} {e : Event} (h : Ordered s)
    (hs : step isolated s e = some s') : Ordered s' := by
  refine step_induction hs ?_ ?_ ?_ h.deliver ?_ fun a => h.advances
  · intro op hs
    obtain rfl := Option.some.inj hs
    exact ⟨h.posted, h.log, h.entered⟩
  · intro clones hs
    obtain ⟨c, rest, -, rfl | rfl⟩ := post_cases hs
    · refine ⟨?_, h.log, h.entered⟩
      dsimp only
      rw [requests_append, h.posted]
      simp [requests]
    · exact ⟨h.posted, h.log, h.entered⟩
  · intro _ hs
    obtain rfl := Option.some.inj hs
    refine ⟨?_, h.log, h.entered⟩
    dsimp only
    rw [requests_append, h.posted]
    simp [requests]
  · intro hs
    obtain ⟨r, rest, hactive, hseq, rfl⟩ := dequeue_cases hs
    have hposted := h.posted
    have hlog := h.log
    rw [hactive] at hposted hlog
    rw [hseq] at hposted
    refine ⟨?_, ?_, ?_⟩
    · dsimp only
      rw [hposted]
      simp
    · dsimp only
      rw [hlog]
      simp [Active.entries]
    · intro a ha
      obtain rfl := Option.some.inj ha
      exact ⟨fun _ => rfl, by simp⟩

/-! ## §5. Who is cancelled. -/

/-- The requests without an answer, by the number of cancels made before their `call`. -/
def State.outstanding (s : State) : List Nat :=
  s.calling.map (·.madeAt) ++ (requests s.inflight).map (·.madeAt) ++
    s.sequence.map (·.madeAt) ++ (s.active.map (·.request.madeAt)).toList

/-- Fewer than 2^32 cancels are outstanding for any request, also after this step. -/
def Bounded (s : State) (e : Event) : Prop :=
  e = .cancel → ∀ m ∈ s.outstanding, s.cancels + 1 < m + 2 ^ 32

instance (s : State) (e : Event) : Decidable (Bounded s e) := by
  unfold Bounded
  infer_instance

/-- The invariant of `Bounded` runs. -/
def Fresh (s : State) : Prop := ∀ m ∈ s.outstanding, s.cancels < m + 2 ^ 32

/-- What is known of the active request. -/
structure Active.Ok (s : State) (a : Active) : Prop where
  epoch : a.request.epoch = BitVec.ofNat 32 a.request.madeAt
  made : a.request.madeAt ≤ a.handledAt
  handled : a.handledAt ≤ s.handled
  /-- The Worker compares with the epoch of THIS request once it has started. -/
  current : a.phase ≠ .awaiting → s.activeEpoch = a.request.epoch
  /-- A cancel handled before it was taken up keeps it out of `execute`. -/
  covered : a.request.madeAt < a.handledAt → a.entered = false ∧
    (a.phase = .awaiting ∨ a.phase = .checking ∨ a.phase = .throwing "CANCELLED")
  /-- Only a cancel made after the call shows. -/
  late : a.saw = true ∨ a.signal = some true → a.request.madeAt < s.cancels

/-- What is known of an answered request. -/
structure Done.Ok (s : State) (d : Done) : Prop where
  covered : d.request.madeAt < d.handledAt → d.entered = false ∧ d.answer = .error "CANCELLED"
  late : d.saw = true ∨ d.aborted = true ∨ d.converted = true → d.request.madeAt < s.cancels

structure Judged (s : State) : Prop where
  active : ∀ a, s.active = some a → a.Ok s
  replies : ∀ d ∈ s.replies, d.Ok s

section Judge

variable {isolated : Bool} {s : State} {a : Active}

/-- **No cancel, no cancellation.**  Where both copies of the epoch have reached the request's
    own, `cancelled()` is false; so when it is true, a cancel was made after the call. -/
theorem madeAt_lt_of_cancelled (he : Epochs isolated s) (ha : a.Ok s) (hp : a.phase ≠ .awaiting)
    (hc : s.cancelled = true) : a.request.madeAt < s.cancels := by
  have hle := he.flight.le
  have hmade := ha.made
  have hhandled := ha.handled
  by_contra hnot
  have hsame : a.request.madeAt = s.handled := by omega
  have hall : s.cancels = s.handled := by omega
  have hworker : s.activeEpoch = s.cancelEpoch := by
    rw [ha.current hp, ha.epoch, hsame, he.worker]
  have hshared : s.cancelView = true → s.shared = s.activeEpoch := by
    intro hv
    rw [he.shared (he.view (.inl hv)), he.client, hall, hworker, he.worker]
  unfold State.cancelled at hc
  simp only [hworker, bne_self_eq_false, Bool.false_or, Bool.and_eq_true] at hc
  obtain ⟨hv, hne⟩ := hc
  rw [hshared hv, hworker] at hne
  simp at hne

/-- **A handled cancel cancels.**  Two epochs less than 2^32 apart differ. -/
theorem cancelled_of_covered (he : Epochs isolated s) (ha : a.Ok s) (hactive : s.active = some a)
    (hfresh : Fresh s) (hp : a.phase ≠ .awaiting) (hcov : a.request.madeAt < a.handledAt) :
    s.cancelled = true := by
  have hle := he.flight.le
  have hhandled := ha.handled
  have hbound : s.cancels < a.request.madeAt + 2 ^ 32 := by
    refine hfresh _ ?_
    simp [State.outstanding, hactive]
  have hne : s.activeEpoch ≠ s.cancelEpoch := by
    rw [ha.current hp, ha.epoch, he.worker]
    intro heq
    have hnat := congrArg BitVec.toNat heq
    rw [BitVec.toNat_ofNat, BitVec.toNat_ofNat] at hnat
    omega
  unfold State.cancelled
  simp [hne]

/-- The answered requests stay as they are while cancels are only added. -/
theorem Done.Ok.later {s s' : State} {d : Done} (h : d.Ok s) (hle : s.cancels ≤ s'.cancels) :
    d.Ok s' :=
  ⟨h.covered, fun hl => lt_of_lt_of_le (h.late hl) hle⟩

/-- What was judged stays right while cancellations are added. -/
theorem Active.Ok.later {s s' : State} (h : a.Ok s) (hcancels : s.cancels ≤ s'.cancels)
    (hhandled : s.handled ≤ s'.handled) (hepoch : s'.activeEpoch = s.activeEpoch) : a.Ok s' :=
  ⟨h.epoch, h.made, h.handled.trans hhandled, fun hp => hepoch.trans (h.current hp), h.covered,
    fun hl => lt_of_lt_of_le (h.late hl) hcancels⟩

/-- Both stay as they are when neither the active request nor the replies change. -/
theorem Judged.later {s s' : State} (h : Judged s) (hactive : s'.active = s.active)
    (hreplies : s'.replies = s.replies) (hcancels : s.cancels ≤ s'.cancels)
    (hhandled : s.handled ≤ s'.handled) (hepoch : s'.activeEpoch = s.activeEpoch) : Judged s' := by
  refine ⟨?_, ?_⟩
  · intro a ha
    rw [hactive] at ha
    exact (h.active a ha).later hcancels hhandled hepoch
  · intro d hd
    rw [hreplies] at hd
    exact (h.replies d hd).later hcancels

/-- The active request is answered: its history becomes that of a `Done`. -/
theorem Judged.finish (h : Judged s) {answer : Answer} {converted : Bool} (ha : a.Ok s)
    (hcov : a.request.madeAt < a.handledAt →
      a.entered = false ∧ answer = .error "CANCELLED")
    (hlate : converted = true → a.request.madeAt < s.cancels) :
    Judged (s.finish a answer converted) := by
  refine ⟨?_, ?_⟩
  · intro a' ha'
    cases ha'
  · intro d hd
    obtain hd | hd := List.mem_append.mp hd
    · exact (h.replies d hd).later (Nat.le_refl _)
    · obtain rfl := List.mem_singleton.mp hd
      refine ⟨hcov, ?_⟩
      intro hl
      obtain hsaw | haborted | hconv := hl
      · exact ha.late (.inl hsaw)
      · exact ha.late (.inr (of_decide_eq_true haborted))
      · exact hlate hconv

/-- The active request moves on and nothing is answered. -/
theorem Judged.change {s s' : State} {a' : Active} (h : Judged s) (ha' : s'.active = some a')
    (hreplies : s'.replies = s.replies) (hcancels : s'.cancels = s.cancels) (hok : a'.Ok s') :
    Judged s' := by
  refine ⟨?_, ?_⟩
  · intro a'' ha''
    rw [ha'] at ha''
    obtain rfl := Option.some.inj ha''
    exact hok
  · intro d hd
    rw [hreplies] at hd
    exact (h.replies d hd).later hcancels.ge

/-- The answer of the request at work is right. -/
theorem Judged.advances {s' : State} (h : Judged s) (he : Epochs isolated s) (hfresh : Fresh s)
    (hactive : s.active = some a) (hs : Advances s a s') : Judged s' := by
  have ha := h.active a hactive
  cases hs with
  | start hp =>
    refine h.change rfl rfl rfl ⟨ha.epoch, ha.made, ha.handled, fun _ => rfl, ?_, ?_⟩
    · intro hcov
      exact ⟨(ha.covered hcov).1, .inr (.inl rfl)⟩
    · intro hl
      exact ha.late (hl.imp id (by simp))
  | refuse hp hc =>
    have hstarted : a.phase ≠ .awaiting := by simp [hp]
    exact h.change rfl rfl rfl ⟨ha.epoch, ha.made, ha.handled, fun _ => ha.current hstarted,
      fun hcov => ⟨(ha.covered hcov).1, .inr (.inr rfl)⟩, ha.late⟩
  | enter hp hc =>
    have hstarted : a.phase ≠ .awaiting := by simp [hp]
    refine h.change rfl rfl rfl ⟨ha.epoch, ha.made, ha.handled, fun _ => ha.current hstarted, ?_,
      ha.late⟩
    -- a covered request would have been refused
    intro hcov
    rw [cancelled_of_covered he ha hactive hfresh hstarted hcov] at hc
    cases hc
  | observe hp =>
    have hstarted : a.phase ≠ .awaiting := by simp [hp]
    refine h.change rfl rfl rfl ⟨ha.epoch, ha.made, ha.handled, ha.current, ha.covered, ?_⟩
    intro hl
    obtain hsaw | hsignal := hl
    · obtain hsaw | hc := Bool.or_eq_true_iff.mp hsaw
      · exact ha.late (.inl hsaw)
      · have hlt := madeAt_lt_of_cancelled he ha hstarted hc
        exact hlt
    · exact ha.late (.inr hsignal)
  | «throw» hp code =>
    have hstarted : a.phase ≠ .awaiting := by simp [hp]
    refine h.change rfl rfl rfl ⟨ha.epoch, ha.made, ha.handled, fun _ => ha.current hstarted, ?_,
      ha.late⟩
    intro hcov
    have hphase := (ha.covered hcov).2
    simp [hp] at hphase
  | result hp =>
    refine h.finish ha ?_ (by simp)
    intro hcov
    have hphase := (ha.covered hcov).2
    simp [hp] at hphase
  | @error code hp =>
    have hstarted : a.phase ≠ .awaiting := by simp [hp]
    refine h.finish ha ?_ (madeAt_lt_of_cancelled he ha hstarted)
    intro hcov
    obtain ⟨hentered, hphase⟩ := ha.covered hcov
    -- the code it was refused with is the one a conversion would give it
    have hcode : code = "CANCELLED" := by simpa [hp] using hphase
    exact ⟨hentered, by simp [hcode]⟩

/-- A delivery judges no request wrong. -/
theorem Judged.deliver {s' : State} (h : Judged s) (he : Epochs isolated s)
    (hs : step isolated s .deliver = some s') : Judged s' := by
  obtain ⟨m, rest, hflight, rfl⟩ := deliver_cases hs
  cases m with
  | configure => exact h.later rfl rfl le_rfl le_rfl rfl
  | request r => exact h.later rfl rfl le_rfl le_rfl rfl
  | cancel epoch =>
    -- the cancel was on its way, so the active request is not newer than it
    have hf := he.flight
    rw [hflight] at hf
    have hle : s.handled + 1 ≤ s.cancels := hf.2.le
    refine ⟨?_, fun d hd => (h.replies d hd).later le_rfl⟩
    intro a' ha'
    obtain ⟨a, hactive, rfl⟩ := Option.map_eq_some_iff.mp ha'
    have ha := h.active a hactive
    refine ⟨ha.epoch, ha.made, Nat.le_succ_of_le ha.handled, ha.current, ha.covered, ?_⟩
    intro _
    have hmade := ha.made
    have hhandled := ha.handled
    show a.request.madeAt < s.cancels
    omega

/-- Every event keeps the answers right. -/
theorem Judged.step {s' : State} {e : Event} (h : Judged s) (he : Epochs isolated s)
    (hfresh : Fresh s) (hs : step isolated s e = some s') : Judged s' := by
  refine step_induction hs ?_ ?_ ?_ (h.deliver he) ?_ fun a => h.advances he hfresh
  · intro op hs
    obtain rfl := Option.some.inj hs
    exact h.later rfl rfl le_rfl le_rfl rfl
  · intro clones hs
    obtain ⟨c, rest, -, rfl | rfl⟩ := post_cases hs
    · exact h.later rfl rfl le_rfl le_rfl rfl
    · exact h.later rfl rfl le_rfl le_rfl rfl
  · intro _ hs
    obtain rfl := Option.some.inj hs
    exact h.later rfl rfl (Nat.le_succ _) le_rfl rfl
  · intro hs
    obtain ⟨r, rest, -, hseq, rfl⟩ := dequeue_cases hs
    obtain ⟨hepoch, hle⟩ := he.sequence r (by rw [hseq]; exact List.mem_cons_self)
    exact h.change rfl rfl rfl ⟨hepoch, hle, le_rfl, by simp, fun _ => ⟨rfl, .inl rfl⟩, by simp⟩

end Judge

/-- Requests only leave the outstanding ones, or join with the cancels made so far. -/
theorem Fresh.step {isolated : Bool} {s s' : State} {e : Event} (h : Fresh s)
    (hok : Bounded s e) (hs : step isolated s e = some s') : Fresh s' := by
  -- enough: the outstanding requests of `s'` are among those of `s`
  have keep : s'.cancels = s.cancels → (∀ m ∈ s'.outstanding, m ∈ s.outstanding) → Fresh s' := by
    intro hcancels hsub m hm
    rw [hcancels]
    exact h m (hsub m hm)
  refine step_induction hs ?_ ?_ ?_ ?_ ?_ ?_
  -- A call is made now, so it is the latest of those outstanding.
  · intro op hs
    obtain rfl := Option.some.inj hs
    intro m hm
    simp only [State.outstanding, List.map_append, List.mem_append, List.map_cons, List.map_nil,
      List.mem_singleton] at hm
    by_cases hm' : m = s.cancels
    · subst hm'
      show s.cancels < s.cancels + 2 ^ 32
      omega
    · refine h m ?_
      simp only [State.outstanding, List.mem_append]
      tauto
  · intro clones hs
    obtain ⟨c, rest, hcalling, rfl | rfl⟩ := post_cases hs
    · refine keep rfl ?_
      intro m hm
      simp only [State.outstanding, requests_append, List.map_append, List.mem_append] at hm
      simp only [State.outstanding, hcalling, List.map_cons, List.mem_append, List.mem_cons]
      simp only [requests, List.filterMap_cons, List.filterMap_nil, List.map_cons, List.map_nil,
        List.mem_singleton] at hm
      tauto
    · refine keep rfl ?_
      intro m hm
      simp only [State.outstanding, List.mem_append] at hm
      simp only [State.outstanding, hcalling, List.map_cons, List.mem_append, List.mem_cons]
      tauto
  -- A cancellation ages all of them by one, which `Bounded` allows.
  · intro he hs
    obtain rfl := Option.some.inj hs
    intro m hm
    refine hok he m ?_
    simpa [State.outstanding, requests] using hm
  · intro hs
    obtain ⟨msg, rest, hflight, rfl⟩ := deliver_cases hs
    cases msg with
    | configure =>
      refine keep rfl ?_
      intro m hm
      simpa [State.outstanding, hflight, State.handle, requests] using hm
    | cancel epoch =>
      refine keep rfl ?_
      intro m hm
      simpa [State.outstanding, hflight, State.handle, requests, Function.comp_def] using hm
    | request r =>
      refine keep rfl ?_
      intro m hm
      simp only [State.outstanding, State.handle, List.map_append, List.mem_append, List.map_cons,
        List.map_nil, List.mem_singleton] at hm
      simp only [State.outstanding, hflight, requests, List.filterMap_cons, List.map_cons,
        List.mem_append, List.mem_cons]
      simp only [requests] at hm
      tauto
  · intro hs
    obtain ⟨r, rest, hactive, hseq, rfl⟩ := dequeue_cases hs
    refine keep rfl ?_
    intro m hm
    simp only [State.outstanding, hseq, hactive, List.map_cons, List.mem_append, List.mem_cons,
      Option.map_some, Option.toList_some] at hm ⊢
    tauto
  · intro a hactive hs
    -- The request at work stays outstanding, or it is answered.
    have hsame : s'.outstanding = s.outstanding ∨
        s'.outstanding = s.calling.map (·.madeAt) ++ (requests s.inflight).map (·.madeAt) ++
          s.sequence.map (·.madeAt) := by
      cases hs <;> simp [State.outstanding, State.finish, hactive]
    have hcancels : s'.cancels = s.cancels := by cases hs <;> rfl
    refine keep hcancels ?_
    intro m hm
    obtain hsame | hsame := hsame
    · rw [hsame] at hm
      exact hm
    · rw [hsame] at hm
      exact List.mem_append_left _ hm

/-! ## §6. Every request is answered. -/

/-- The ids in posting order are increasing: a reply names one request. -/
structure Numbered (s : State) : Prop where
  increasing : s.posted.Pairwise fun r r' => r.id < r'.id
  le_next : ∀ r ∈ s.posted, r.id ≤ s.next

/-- Numbers stay given out. -/
theorem Numbered.keep {s s' : State} (h : Numbered s) (hposted : s'.posted = s.posted)
    (hnext : s.next ≤ s'.next) : Numbered s' := by
  refine ⟨by rw [hposted]; exact h.increasing, ?_⟩
  rw [hposted]
  intro r hr
  exact (h.le_next r hr).trans hnext

/-- No number is given twice. -/
theorem Numbered.step {isolated : Bool} {s s' : State} {e : Event} (h : Numbered s)
    (hs : step isolated s e = some s') : Numbered s' := by
  refine step_induction hs ?_ ?_ ?_ ?_ ?_ ?_
  · intro op hs
    obtain rfl := Option.some.inj hs
    exact h.keep rfl le_rfl
  · intro clones hs
    obtain ⟨c, rest, -, rfl | rfl⟩ := post_cases hs
    · refine ⟨List.pairwise_append.mpr ⟨h.increasing, List.pairwise_singleton _ _, ?_⟩, ?_⟩
      · intro r hr r' hr'
        obtain rfl := List.mem_singleton.mp hr'
        exact Nat.lt_succ_of_le (h.le_next r hr)
      · intro r hr
        obtain hr | hr := List.mem_append.mp hr
        · exact Nat.le_succ_of_le (h.le_next r hr)
        · obtain rfl := List.mem_singleton.mp hr
          exact le_rfl
    · exact h.keep rfl (Nat.le_succ _)
  · intro _ hs
    obtain rfl := Option.some.inj hs
    exact h.keep rfl le_rfl
  · intro hs
    obtain ⟨m, rest, -, rfl⟩ := deliver_cases hs
    cases m <;> exact h.keep rfl le_rfl
  · intro hs
    obtain ⟨r, rest, -, -, rfl⟩ := dequeue_cases hs
    exact h.keep rfl le_rfl
  · intro a _ hs
    cases hs <;> exact h.keep rfl le_rfl

/-- The steps of the Worker. -/
def Event.worker : Event → Bool
  | .call _ | .post _ | .cancel => false
  | _ => true

/-- How many steps a message and a phase still need at most. -/
def Message.cost : Message → Nat
  | .request _ => 6
  | _ => 1

def Phase.cost : Phase → Nat
  | .awaiting => 4
  | .checking => 3
  | .executing => 2
  | .throwing _ => 1

def State.remaining (s : State) : Nat :=
  (s.inflight.map Message.cost).sum + 5 * s.sequence.length +
    (s.active.map fun a => a.phase.cost).getD 0

/-- A step that the Worker can make and that brings it nearer to the end of its work. -/
def Progress (isolated : Bool) (s : State) : Prop :=
  ∃ e s', e.worker = true ∧ step isolated s e = some s' ∧ s'.posted = s.posted ∧
    s'.remaining < s.remaining

/-- A request at work can go on. -/
theorem progress_active {isolated : Bool} {s : State} {a : Active} (ha : s.active = some a) :
    Progress isolated s := by
  have hwork : ∀ e, s.work e = s.advance a e := by
    intro e
    unfold State.work
    rw [ha]
  cases hp : a.phase with
  | awaiting =>
    refine ⟨.start, _, rfl, (hwork .start).trans (if_pos hp), rfl, ?_⟩
    simp [State.remaining, ha, hp, Phase.cost]
  | checking =>
    have hstep := hwork .check
    simp only [State.advance, hp, if_true] at hstep
    by_cases hc : s.cancelled = true
    · rw [if_pos hc] at hstep
      refine ⟨.check, _, rfl, hstep, rfl, ?_⟩
      simp [State.remaining, ha, hp, Phase.cost]
    · rw [if_neg hc] at hstep
      refine ⟨.check, _, rfl, hstep, rfl, ?_⟩
      simp [State.remaining, ha, hp, Phase.cost]
  | executing =>
    refine ⟨.settle .result, _, rfl, (hwork _).trans (if_pos hp), rfl, ?_⟩
    simp [State.remaining, State.finish, ha, hp, Phase.cost]
  | throwing code =>
    have hstep := hwork .reply
    simp only [State.advance, hp] at hstep
    refine ⟨.reply, _, rfl, hstep, rfl, ?_⟩
    simp [State.remaining, State.finish, ha, hp, Phase.cost]

/-- **While a request is unanswered something can happen.** -/
theorem progress (isolated : Bool) {s : State} (h : 0 < s.remaining) : Progress isolated s := by
  cases hactive : s.active with
  | some a => exact progress_active hactive
  | none =>
    cases hseq : s.sequence with
    | cons r rest =>
      have hstep : step isolated s .dequeue = some { s with
          sequence := rest
          active := some {
            request := r, phase := .awaiting, signal := none, handledAt := s.handled
            entered := false, saw := false } } := by
        simp only [step, hactive, hseq]
      refine ⟨.dequeue, _, rfl, hstep, rfl, ?_⟩
      simp [State.remaining, hactive, hseq, Phase.cost]
      omega
    | nil =>
      cases hflight : s.inflight with
      | nil => simp [State.remaining, hactive, hseq, hflight] at h
      | cons m rest =>
        have hstep : step isolated s .deliver
            = some (State.handle { s with inflight := rest } m) := by
          simp only [step, hflight]
        refine ⟨.deliver, _, rfl, hstep, ?_, ?_⟩
        · cases m <;> rfl
        · cases m with
          | configure => simp [State.remaining, State.handle, hactive, hseq, hflight, Message.cost]
          | cancel epoch => simp [State.remaining, State.handle, hactive, hseq, hflight, Message.cost]
          | request r =>
            simp [State.remaining, State.handle, hactive, hseq, hflight, Message.cost]
            omega

/-- **The Worker drains.**  It has a run of its own that answers everything posted. -/
theorem drains (isolated : Bool) (n : Nat) : ∀ s : State, s.remaining ≤ n →
    ∃ more s', (∀ e ∈ more, e.worker = true) ∧ run (step isolated) s more = some s' ∧
      s'.posted = s.posted ∧ s'.remaining = 0 := by
  induction n with
  | zero =>
    intro s hs
    exact ⟨[], s, by simp, rfl, rfl, by omega⟩
  | succ n ih =>
    intro s hs
    by_cases hzero : s.remaining = 0
    · exact ⟨[], s, by simp, rfl, rfl, hzero⟩
    · obtain ⟨e, s₁, hworker, hstep, hposted, hless⟩ :=
        progress isolated (Nat.pos_of_ne_zero hzero)
      obtain ⟨more, s', hall, hrun, hposted', hdone⟩ := ih s₁ (by omega)
      refine ⟨e :: more, s', ?_, ?_, hposted'.trans hposted, hdone⟩
      · exact List.forall_mem_cons.mpr ⟨hworker, hall⟩
      · unfold run
        rw [hstep]
        exact hrun

/-- Nothing remains exactly when everything posted is answered. -/
theorem Ordered.drained {s : State} (h : Ordered s) (hzero : s.remaining = 0) :
    s.replies.map (·.request) = s.posted := by
  unfold State.remaining at hzero
  have hactive : s.active = none := by
    cases ha : s.active with
    | none => rfl
    | some a =>
      have hpos : 0 < a.phase.cost := by cases a.phase <;> simp [Phase.cost]
      simp [ha] at hzero
      omega
  have hseq : s.sequence = [] := List.eq_nil_of_length_eq_zero (by omega)
  have hflight : s.inflight = [] := by
    cases hf : s.inflight with
    | nil => rfl
    | cons m rest =>
      have hpos : 0 < m.cost := by cases m <;> simp [Message.cost]
      simp [hf] at hzero
      omega
  rw [h.posted, hactive, hseq, hflight]
  simp [requests]

/-! ## §7. Runs. -/

/-- All of it together. -/
structure Inv (isolated : Bool) (s : State) : Prop where
  epochs : Epochs isolated s
  ordered : Ordered s
  judged : Judged s
  fresh : Fresh s
  numbered : Numbered s

/-- The Worker at its start. -/
theorem inv_init (isolated : Bool) : Inv isolated (init isolated) where
  epochs := epochs_init isolated
  ordered := ordered_init isolated
  judged := ⟨by simp [init], by simp [init]⟩
  fresh := by cases isolated <;> simp [Fresh, State.outstanding, init, requests]
  numbered := ⟨List.Pairwise.nil, by simp [init]⟩

/-- **Every event keeps the invariant**, while the epochs do not lap each other. -/
theorem inv_step (isolated : Bool) (s : State) (e : Event) (s' : State) (h : Inv isolated s)
    (hok : Bounded s e) (hs : step isolated s e = some s') : Inv isolated s' where
  epochs := h.epochs.step hs
  ordered := h.ordered.step hs
  judged := h.judged.step h.epochs h.fresh hs
  fresh := h.fresh.step hok hs
  numbered := h.numbered.step hs

/-- **Serialization and cancellation.**  In every interleaving of calls, cancels and deliveries
    with fewer than 2^32 cancels outstanding: the requests are taken up one at a time in posting
    order and each is answered once; the Worker can always finish what was posted; a request
    whose `call` came before a cancel that was handled when it was taken up is answered
    `CANCELLED` and `execute` is not entered; a request whose `call` came after the last cancel
    sees `cancelled()` false, a signal that is not aborted, and no conversion. -/
theorem serialized (isolated : Bool) (events : List Event) (s : State)
    (hok : Throughout (step isolated) Bounded (init isolated) events)
    (hrun : run (step isolated) (init isolated) events = some s) :
    Ordered s ∧ Numbered s ∧
    (∃ more s', (∀ e ∈ more, e.worker = true) ∧ run (step isolated) s more = some s' ∧
      s'.posted = s.posted ∧ s'.replies.map (·.request) = s.posted) ∧
    (∀ d ∈ s.replies, d.request.madeAt < d.handledAt →
      d.entered = false ∧ d.answer = .error "CANCELLED") ∧
    (∀ a, s.active = some a → a.request.madeAt < a.handledAt → a.entered = false) ∧
    (∀ d ∈ s.replies, d.request.madeAt = s.cancels →
      d.saw = false ∧ d.aborted = false ∧ d.converted = false) ∧
    (∀ a, s.active = some a → a.request.madeAt = s.cancels →
      a.saw = false ∧ a.signal ≠ some true ∧ (a.phase ≠ .awaiting → s.cancelled = false)) := by
  have hinv := run_invariant (inv_step isolated) events _ _ (inv_init isolated) hok hrun
  refine ⟨hinv.ordered, hinv.numbered, ?_, fun d hd => (hinv.judged.replies d hd).covered,
    fun a ha hcov => ((hinv.judged.active a ha).covered hcov).1, ?_, ?_⟩
  · obtain ⟨more, s', hall, hrun', hposted, hzero⟩ := drains isolated _ s le_rfl
    have hordered : Ordered s' := run_keeps (fun _ _ _ h hs => h.step hs) more s s' hinv.ordered hrun'
    exact ⟨more, s', hall, hrun', hposted, (hordered.drained hzero).trans hposted⟩
  · intro d hd hlast
    have hlate := (hinv.judged.replies d hd).late
    rw [hlast] at hlate
    refine ⟨?_, ?_, ?_⟩
    · exact Bool.eq_false_iff.mpr fun h => lt_irrefl _ (hlate (.inl h))
    · exact Bool.eq_false_iff.mpr fun h => lt_irrefl _ (hlate (.inr (.inl h)))
    · exact Bool.eq_false_iff.mpr fun h => lt_irrefl _ (hlate (.inr (.inr h)))
  · intro a ha hlast
    have hactive := hinv.judged.active a ha
    have hlate := hactive.late
    rw [hlast] at hlate
    refine ⟨?_, ?_, ?_⟩
    · exact Bool.eq_false_iff.mpr fun h => lt_irrefl _ (hlate (.inl h))
    · exact fun h => lt_irrefl _ (hlate (.inr h))
    · intro hp
      refine Bool.eq_false_iff.mpr fun hc => ?_
      have hlt := madeAt_lt_of_cancelled hinv.epochs hactive hp hc
      omega

/-- A read runs, a second read and a cancel are made meanwhile, and a third call follows the
    cancel: the first stops, the second never starts, the third completes. -/
def demoEvents : List Event :=
  [.deliver, .call "read", .post true, .deliver, .dequeue, .start, .check, .call "read", .cancel,
    .observe, .call "save", .post true, .post true, .deliver, .settle (.error "IO_ERROR"), .reply,
    .deliver, .deliver, .dequeue, .start, .check, .reply, .dequeue, .start, .check, .observe,
    .settle .result]

/-- A call at work, one in the queue and one after the cancellation. -/
theorem demoEvents_serialized :
    ∃ s, run (step true) (init true) demoEvents = some s ∧
      s.replies.map (·.answer) = [.error "CANCELLED", .error "CANCELLED", .result] ∧
      s.replies.map (·.entered) = [true, false, true] ∧
      ∀ d ∈ s.replies, d.request.madeAt = s.cancels →
        d.saw = false ∧ d.aborted = false ∧ d.converted = false := by
  have hrun : run (step true) (init true) demoEvents = some _ := run_getD (by decide +kernel)
  refine ⟨_, hrun, by decide +kernel, by decide +kernel, ?_⟩
  exact (serialized true demoEvents _ (by decide +kernel) hrun).2.2.2.2.2.1

end My98.Web.WorkerProtocol
