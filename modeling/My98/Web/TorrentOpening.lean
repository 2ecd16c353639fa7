/-
  My98.Web.TorrentOpening — callers that share the opening of a torrent
  (`open`, `add`, `recover` and `waitFor` of `src/disk/web/torrent-window.js`).

  `open` has at most one job for an infohash.  A caller JOINS the job (`waiters++`), and leaves it when
  the job has ended or the caller's own signal aborts; when the last one has left a job that has not
  ended, the job's controller is aborted: it is ABANDONED.  A caller that finds an abandoned job waits
  for its end, and calls `open` again.  `recover` removes an entry that has failed and calls `open`
  without a signal, once for all its callers.

  One list of events is one run.  What discovery, the verification and the torrent do is part of the
  events; whatever happens between two turns of a caller may happen in any order.  `cancel`,
  `clearCaches` and `close` are no events.

    • `step`                       — the transport, and what may happen to it;
    • `Inv`                        — what holds between any two events;
    • `Inv.setCaller`, `Inv.setJob` — a caller goes on, a job goes on;
    • `turned_of_turn`             — what one turn of a job can do to it.
-/
import Mathlib
import My98.Lib.Machine

namespace My98.Web.TorrentOpening

open My98.Lib

/-! ## §1. The code. -/

inductive Failure where
  /-- The reason of the caller's own signal. -/
  | own
  /-- The reason of the controller of a job: `Torrent opening has no readers`. -/
  | abandoned
  | error (code : String)
  deriving DecidableEq

abbrev Result := Except Failure Unit

inductive Stage where
  | created (metadata : Bool)
  | discovering
  | verifying
  | initializing
  /-- The torrent is in the client, and neither `ready` nor failed. -/
  | added
  /-- The function has ended; `finally` comes next. -/
  | returned (result : Result)
  deriving DecidableEq

/-- A job, with the `error` and the `torrent.destroyed` of the entry that it adds. -/
structure Job (H : Type) where
  hash : H
  stage : Stage
  /-- `controller.signal.aborted`. -/
  aborted : Bool
  waiters : Nat
  settled : Bool
  error : Option String
  destroyed : Bool

/-- Where the result of a caller came from. -/
inductive Origin where
  | direct
  | job (j : Nat)
  | recovery (i : Nat)
  deriving DecidableEq

/-- What a caller awaits. -/
inductive Pc where
  /-- The promise of an aborted job, to call `open` again. -/
  | behind (j : Nat)
  /-- `waitFor(job.promise,signal)`. -/
  | inside (j : Nat)
  /-- `waitFor` has settled; `finally` comes next. -/
  | leaving (j : Nat) (result : Result)
  /-- `waitFor(promise,signal)` of `recover`. -/
  | waiting (i : Nat)
  | done (origin : Origin) (result : Result)
  deriving DecidableEq

/-- A call of `open` or `recover`. -/
structure Caller (H : Type) where
  hash : H
  metadata : Bool
  /-- It has a signal. -/
  signal : Bool
  aborted : Bool
  pc : Pc

inductive Repair where
  /-- `await this.remove(hash)`. -/
  | removing
  /-- `return this.open(…)`, the caller of which is `callers[c]`. -/
  | opening (c : Nat)
  | settled (result : Result)
  deriving DecidableEq

structure Recovery (H : Type) where
  hash : H
  stage : Repair

/-- `WindowTorrents`, of which `known` are the keys of `componentMetadata`. -/
structure Transport (H : Type) where
  callers : List (Caller H)
  jobs : List (Job H)
  recoveries : List (Recovery H)
  openingJobs : H → Option Nat
  /-- The entry is the one that the job added. -/
  entries : H → Option Nat
  recovering : H → Option Nat
  known : H → Bool

def Transport.empty (H : Type) : Transport H :=
  { callers := [], jobs := [], recoveries := [], openingJobs := fun _ => none,
    entries := fun _ => none, recovering := fun _ => none, known := fun _ => false }

variable {H : Type} [DecidableEq H]

/-- `entry(hash)`, of an entry that is there. -/
def Job.entry (b : Job H) : Result :=
  match b.error with
  | some code => .error (.error code)
  | none => if b.destroyed then .error (.error "TRANSPORT_ERROR") else .ok ()

/-- The entry of `hash`, if there is one. -/
def Transport.entry (t : Transport H) (hash : H) : Option Result :=
  ((t.entries hash).bind fun j => t.jobs[j]?).map Job.entry

/-- `remove(hash)`, up to its `await`. -/
def Transport.remove (t : Transport H) (hash : H) : Transport H :=
  match t.entries hash with
  | none => t
  | some j =>
    { t with
      entries := Function.update t.entries hash none
      jobs := t.jobs.modify j fun b => { b with error := some "CANCELLED", destroyed := true } }

/-- `if(this.entries.get(hash)===entry)void this.remove(hash)`, of the entry of job `j`. -/
def Transport.drop (t : Transport H) (hash : H) (j : Nat) : Transport H :=
  if t.entries hash = some j then t.remove hash else t

def newJob (hash : H) (metadata : Bool) : Job H :=
  { hash, stage := .created metadata, aborted := false, waiters := 1, settled := false, error := none,
    destroyed := false }

/-- `open`, up to its first `await`. -/
def Transport.enter (t : Transport H) (hash : H) (metadata aborted : Bool) : Transport H × Pc :=
  if aborted then (t, .done .direct (.error .own))
  else
    match t.openingJobs hash with
    | some j =>
      if (t.jobs[j]?).any Job.aborted then (t, .behind j)
      else ({ t with jobs := t.jobs.modify j fun b => { b with waiters := b.waiters + 1 } }, .inside j)
    | none =>
      match t.entry hash with
      | some result => (t, .done .direct result)
      | none =>
        ({ t with
            jobs := t.jobs ++ [newJob hash metadata]
            openingJobs := Function.update t.openingJobs hash (some t.jobs.length) },
          .inside t.jobs.length)

def newCaller (hash : H) (metadata : Bool) (signal : Option Bool) (pc : Pc) : Caller H :=
  { hash, metadata, signal := signal.isSome, aborted := signal.getD false, pc }

/-- A call of `open`. -/
def Transport.open (t : Transport H) (hash : H) (metadata : Bool) (signal : Option Bool) :
    Transport H :=
  let (t, pc) := t.enter hash metadata (signal.getD false)
  { t with callers := t.callers ++ [newCaller hash metadata signal pc] }

/-- `componentMetadata.set(hash,…)`, of an entry that is there. -/
def Transport.remember (t : Transport H) (hash : H) : Transport H :=
  { t with known := Function.update t.known hash (t.known hash || (t.entry hash).isSome) }

def Transport.addRecovery (t : Transport H) (hash : H) (stage : Repair) : Transport H × Pc :=
  ({ t with
      recoveries := t.recoveries ++ [{ hash, stage }]
      recovering := Function.update t.recovering hash (some t.recoveries.length) },
    .waiting t.recoveries.length)

/-- A call of `recover`, up to its first `await`. -/
def Transport.repair (t : Transport H) (hash : H) (metadata kind aborted : Bool) : Transport H × Pc :=
  if aborted then (t, .done .direct (.error .own))
  else
    match t.recovering hash with
    | some i => (t, .waiting i)
    | none =>
      if t.entry hash = some (.ok ()) then (t, .done .direct (.ok ()))
      else
        let t := t.remember hash
        if (metadata || t.known hash) = false ∨ (kind || t.known hash) = false then
          (t, .done .direct (.error (.error "TRANSPORT_ERROR")))
        else if (t.entry hash).isSome then (t.remove hash).addRecovery hash .removing
        else (t.open hash true none).addRecovery hash (.opening t.callers.length)

def Transport.recover (t : Transport H) (hash : H) (metadata kind : Bool) (signal : Option Bool) :
    Transport H :=
  let (t, pc) := t.repair hash metadata kind (signal.getD false)
  { t with callers := t.callers ++ [newCaller hash metadata signal pc] }

/-- What a job does next, and what the torrent of its entry does. -/
inductive Turn where
  | begin
  | discovered (result : Except String Unit)
  /-- What the job awaits is rejected with the reason of its controller. -/
  | interrupted
  | verified (result : Except String Unit)
  /-- After `initialize` and `client.add`. -/
  | initialized (result : Except String Unit)
  | ready
  | expired
  | errored (code : String)
  | closed
  /-- An error of the client, for this entry. -/
  | failed (code : String)
  | destroyed

/-- `if(signal.aborted)throw cancelled(signal)`. -/
def Job.check (b : Job H) (next : Stage) : Job H :=
  { b with stage := if b.aborted then .returned (.error .abandoned) else next }

/-- The end of the function, unless it has ended. -/
def Job.fail (b : Job H) (code : String) : Job H :=
  { b with stage := if b.stage = .added then .returned (.error (.error code)) else b.stage }

/-- The torrent has been added. -/
def Job.live (b : Job H) : Bool :=
  match b.stage with
  | .added => true
  | .returned _ => true
  | _ => false

/-- The job after one turn. -/
def Job.turn (b : Job H) : Turn → Option (Job H)
  | .begin =>
    match b.stage with
    | .created metadata => some (if metadata then b.check .verifying else { b with stage := .discovering })
    | _ => none
  | .discovered result =>
    if b.stage = .discovering then
      match result with
      | .error code => some { b with stage := .returned (.error (.error code)) }
      | .ok _ => some (b.check .verifying)
    else none
  | .interrupted =>
    if (b.stage = .discovering ∨ b.stage = .initializing) ∧ b.aborted = true then
      some { b with stage := .returned (.error .abandoned) }
    else none
  | .verified result =>
    if b.stage = .verifying then
      match result with
      | .error code => some { b with stage := .returned (.error (.error code)) }
      | .ok _ => some (b.check .initializing)
    else none
  | .initialized result =>
    if b.stage = .initializing then
      match result with
      | .error code => some { b with stage := .returned (.error (.error code)) }
      | .ok _ => some (b.check .added)
    else none
  | .ready => if b.stage = .added then some { b with stage := .returned (.ok ()) } else none
  | .expired =>
    if b.stage = .added then some { b.fail "TRANSPORT_TIMEOUT" with error := some "TRANSPORT_TIMEOUT" }
    else none
  | .errored code => if b.live then some { b.fail code with error := some code } else none
  | .closed =>
    if b.live then
      let code := b.error.getD "CANCELLED"
      some { b.fail code with error := some code }
    else none
  | .failed code => if b.live then some { b with error := some code } else none
  | .destroyed => if b.live then some { b with destroyed := true } else none

/-- What the turn of job `j`, which is `b` after it, does to the maps. -/
def Transport.after (t : Transport H) (j : Nat) (b : Job H) : Turn → Transport H
  | .verified (.ok _) => if b.aborted then t else { t with known := Function.update t.known b.hash true }
  | .initialized (.ok _) =>
    if b.aborted then t else { t with entries := Function.update t.entries b.hash (some j) }
  | .expired => t.drop b.hash j
  | _ => t

/-- `controller.abort`, with `abortOpening` of a job whose torrent has been added. -/
def Transport.abandon (t : Transport H) (j : Nat) (b : Job H) : Transport H :=
  if b.stage = .added then
    { t with
      jobs := t.jobs.set j { b with aborted := true, stage := .returned (.error .abandoned) } }.drop b.hash j
  else { t with jobs := t.jobs.set j { b with aborted := true } }

/-- `finally` of `open`, of the job `b` with one waiter less. -/
def Transport.left (t : Transport H) (j : Nat) (b : Job H) : Transport H :=
  if b.waiters = 0 ∧ b.settled = false then t.abandon j b else { t with jobs := t.jobs.set j b }

/-- `abort` of `waitFor`, and the end of a caller that has nothing to do after it. -/
def Pc.cancel : Pc → Pc
  | .behind _ => .done .direct (.error .own)
  | .inside j => .leaving j (.error .own)
  | .waiting i => .done (.recovery i) (.error .own)
  | pc => pc

/-- The caller's own signal aborts. -/
def Caller.cancel (a : Caller H) : Caller H := { a with aborted := true, pc := a.pc.cancel }

def Transport.setPc (t : Transport H) (c : Nat) (a : Caller H) (pc : Pc) : Transport H :=
  { t with callers := t.callers.set c { a with pc } }

/-- The result that the promise of the job is settled with. -/
def Job.promise (b : Job H) : Option Result :=
  match b.stage with
  | .returned result => if b.settled then some result else none
  | _ => none

/-- What `waitFor` settles with, once what it waits for has settled. -/
def Transport.deliver (t : Transport H) (c : Nat) (a : Caller H) : Option (Transport H) :=
  match a.pc with
  | .inside j =>
    ((t.jobs[j]?).bind Job.promise).map fun result => t.setPc c a (.leaving j result)
  | .waiting i =>
    match (t.recoveries[i]?).map Recovery.stage with
    | some (.settled result) => some (t.setPc c a (.done (.recovery i) result))
    | _ => none
  | _ => none

def Transport.leave (t : Transport H) (c : Nat) (a : Caller H) : Option (Transport H) :=
  match a.pc with
  | .leaving j result =>
    (t.jobs[j]?).map fun b => (t.setPc c a (.done (.job j) result)).left j { b with waiters := b.waiters - 1 }
  | _ => none

def Transport.resume (t : Transport H) (c : Nat) (a : Caller H) : Option (Transport H) :=
  match a.pc with
  | .behind j =>
    if ((t.jobs[j]?).bind Job.promise).isSome then
      some ((t.enter a.hash a.metadata a.aborted).1.setPc c a (t.enter a.hash a.metadata a.aborted).2)
    else none
  | _ => none

inductive Event (H : Type) where
  /-- A call; the signal, if there is one, may have been aborted. -/
  | open (hash : H) (metadata : Bool) (signal : Option Bool)
  | recover (hash : H) (metadata kind : Bool) (signal : Option Bool)
  /-- The signal of `callers[c]` aborts. -/
  | abort (c : Nat)
  | deliver (c : Nat)
  | leave (c : Nat)
  | resume (c : Nat)
  | job (j : Nat) (turn : Turn)
  /-- `finally` of the job. -/
  | settle (j : Nat)
  /-- `remove` has ended. -/
  | removed (i : Nat)
  /-- `open` has ended. -/
  | recovered (i : Nat)
  /-- `finally` of the recovery. -/
  | cleared (i : Nat)

def step (t : Transport H) : Event H → Option (Transport H)
  | .open hash metadata signal => some (t.open hash metadata signal)
  | .recover hash metadata kind signal => some (t.recover hash metadata kind signal)
  | .abort c =>
    (t.callers[c]?).bind fun a =>
      if a.signal = true ∧ a.aborted = false then some { t with callers := t.callers.set c a.cancel }
      else none
  | .deliver c => (t.callers[c]?).bind fun a => t.deliver c a
  | .leave c => (t.callers[c]?).bind fun a => t.leave c a
  | .resume c => (t.callers[c]?).bind fun a => t.resume c a
  | .job j turn =>
    (t.jobs[j]?).bind fun b => (b.turn turn).map fun b => { t with jobs := t.jobs.set j b }.after j b turn
  | .settle j =>
    (t.jobs[j]?).bind fun b =>
      match b.stage with
      | .returned _ =>
        if b.settled then none
        else
          let openingJobs :=
            if t.openingJobs b.hash = some j then Function.update t.openingJobs b.hash none
            else t.openingJobs
          some { t with jobs := t.jobs.set j { b with settled := true }, openingJobs }
      | _ => none
  | .removed i =>
    (t.recoveries[i]?).bind fun r =>
      if r.stage = .removing then
        let c := t.callers.length
        let t := t.open r.hash true none
        some { t with recoveries := t.recoveries.set i { r with stage := .opening c } }
      else none
  | .recovered i =>
    (t.recoveries[i]?).bind fun r =>
      match r.stage with
      | .opening c =>
        match (t.callers[c]?).map Caller.pc with
        | some (.done _ result) =>
          some { t with recoveries := t.recoveries.set i { r with stage := .settled result } }
        | _ => none
      | _ => none
  | .cleared i =>
    (t.recoveries[i]?).bind fun r =>
      match r.stage with
      | .settled _ =>
        if t.recovering r.hash = some i then
          some { t with recovering := Function.update t.recovering r.hash none }
        else none
      | _ => none

/-! ## §2. The invariant. -/

/-- The job that the caller has joined, whether or not it has left it. -/
def Pc.joined : Pc → Option Nat
  | .inside j => some j
  | .leaving j _ => some j
  | .done (.job j) _ => some j
  | _ => none

/-- The caller is one of `job.waiters`. -/
def Pc.holds (j : Nat) : Pc → Bool
  | .inside k => k == j
  | .leaving k _ => k == j
  | _ => false

def Caller.holds (j : Nat) (a : Caller H) : Bool := a.pc.holds j

/-- The job has ended, was never abandoned, and its result is `result`. -/
def Served (b : Job H) (result : Result) : Prop :=
  b.settled = true ∧ b.aborted = false ∧ b.stage = .returned result

/-- What is so of a caller that has come as far as `pc`. -/
def PcOk (t : Transport H) (hash : H) (aborted : Bool) : Pc → Prop
  | .behind j => aborted = false ∧ ∃ b, t.jobs[j]? = some b ∧ b.hash = hash ∧ b.aborted = true
  | .inside j => aborted = false ∧ ∃ b, t.jobs[j]? = some b ∧ b.hash = hash
  | .leaving j result => ∃ b, t.jobs[j]? = some b ∧ b.hash = hash ∧
      (result = .error .own ∧ aborted = true ∨ Served b result)
  | .waiting i => aborted = false ∧ ∃ r, t.recoveries[i]? = some r ∧ r.hash = hash
  | .done .direct result => (result = .error .own → aborted = true) ∧ result ≠ .error .abandoned
  | .done (.job j) result => ∃ b, t.jobs[j]? = some b ∧ b.hash = hash ∧
      (result = .error .own ∧ aborted = true ∨ Served b result)
  | .done (.recovery i) result => ∃ r, t.recoveries[i]? = some r ∧ r.hash = hash ∧
      (result = .error .own ∧ aborted = true ∨ r.stage = .settled result)

/-- What is so of job `j`. -/
structure JobOk (t : Transport H) (j : Nat) (b : Job H) : Prop where
  waiters : b.waiters = t.callers.countP (Caller.holds j)
  listed : b.settled = false → t.openingJobs b.hash = some j
  empty : b.aborted = true → b.waiters = 0 ∧
    ∀ a ∈ t.callers, a.pc.joined = some j → a.aborted = true
  ended : b.settled = true → ∃ result, b.stage = .returned result
  result : ∀ result, b.stage = .returned result →
    result ≠ .error .own ∧ (result = .error .abandoned → b.aborted = true)

structure RecoveryOk (t : Transport H) (i : Nat) (r : Recovery H) : Prop where
  current : (∀ result, r.stage ≠ .settled result) → t.recovering r.hash = some i
  opening : ∀ c, r.stage = .opening c → ∃ a, t.callers[c]? = some a ∧ a.signal = false
  result : ∀ result, r.stage = .settled result → result ≠ .error .own ∧ result ≠ .error .abandoned

structure Inv (t : Transport H) : Prop where
  callers : ∀ a ∈ t.callers, PcOk t a.hash a.aborted a.pc ∧ (a.signal = false → a.aborted = false)
  jobs : ∀ j b, t.jobs[j]? = some b → JobOk t j b
  listed : ∀ hash j, t.openingJobs hash = some j →
    ∃ b, t.jobs[j]? = some b ∧ b.hash = hash ∧ b.settled = false
  recoveries : ∀ i r, t.recoveries[i]? = some r → RecoveryOk t i r
  current : ∀ hash i, t.recovering hash = some i → ∃ r, t.recoveries[i]? = some r ∧ r.hash = hash

omit [DecidableEq H] in
theorem inv_empty : Inv (Transport.empty H) := by
  refine ⟨fun a ha => ?_, fun j b hj => ?_, fun hash j h => ?_, fun i r hi => ?_, fun hash i h => ?_⟩
  · cases ha
  · cases hj
  · cases h
  · cases hi
  · cases h

/-- What was so of a caller is still so of it. -/
structure Grows (t t' : Transport H) : Prop where
  jobs : ∀ (j : Nat) (b : Job H), t.jobs[j]? = some b → ∃ b', t'.jobs[j]? = some b' ∧ b'.hash = b.hash ∧
    (b.aborted = true → b'.aborted = true) ∧ ∀ result, Served b result → Served b' result
  recoveries : ∀ (i : Nat) (r : Recovery H), t.recoveries[i]? = some r → ∃ r', t'.recoveries[i]? = some r' ∧
    r'.hash = r.hash ∧ ∀ result, r.stage = .settled result → r'.stage = .settled result

omit [DecidableEq H] in
theorem PcOk.grows {t t' : Transport H} (hg : Grows t t') {hash : H} {aborted : Bool} {pc : Pc}
    (h : PcOk t hash aborted pc) : PcOk t' hash aborted pc := by
  have hserved : ∀ (j : Nat) (result : Result), (∃ b, t.jobs[j]? = some b ∧ b.hash = hash ∧
      (result = .error .own ∧ aborted = true ∨ Served b result)) →
      ∃ b, t'.jobs[j]? = some b ∧ b.hash = hash ∧
        (result = .error .own ∧ aborted = true ∨ Served b result) := by
    intro j result hj
    obtain ⟨b, hb, hhash, hr⟩ := hj
    obtain ⟨b', hb', hhash', -, hkeep⟩ := hg.jobs j b hb
    exact ⟨b', hb', hhash'.trans hhash, hr.imp id (hkeep result)⟩
  cases pc with
  | behind j =>
    obtain ⟨hno, b, hb, hhash, haborted⟩ := h
    obtain ⟨b', hb', hhash', hkeep, -⟩ := hg.jobs j b hb
    exact ⟨hno, b', hb', hhash'.trans hhash, hkeep haborted⟩
  | inside j =>
    obtain ⟨hno, b, hb, hhash⟩ := h
    obtain ⟨b', hb', hhash', -⟩ := hg.jobs j b hb
    exact ⟨hno, b', hb', hhash'.trans hhash⟩
  | leaving j result => exact hserved j result h
  | waiting i =>
    obtain ⟨hno, r, hr, hhash⟩ := h
    obtain ⟨r', hr', hhash', -⟩ := hg.recoveries i r hr
    exact ⟨hno, r', hr', hhash'.trans hhash⟩
  | done origin result =>
    cases origin with
    | direct => exact h
    | job j => exact hserved j result h
    | recovery i =>
      obtain ⟨r, hr, hhash, hcase⟩ := h
      obtain ⟨r', hr', hhash', hkeep⟩ := hg.recoveries i r hr
      exact ⟨r', hr', hhash'.trans hhash, hcase.imp id (hkeep result)⟩

omit [DecidableEq H] in
/-- A caller that holds no job has none to leave. -/
theorem not_holds {pc : Pc} (h : pc.joined = none) (j : Nat) : pc.holds j = false := by
  cases pc with
  | inside k => cases h
  | leaving k result => cases h
  | behind k => rfl
  | waiting i => rfl
  | done origin result => rfl

section Operations

variable {t : Transport H}

omit [DecidableEq H] in
/-- **One caller goes on**, in the same job or in none. -/
theorem Inv.setCaller (h : Inv t) {c : Nat} {a a' : Caller H} (ha : t.callers[c]? = some a)
    (hok : PcOk t a'.hash a'.aborted a'.pc) (hsignal : a'.signal = a.signal)
    (hunsignalled : a'.signal = false → a'.aborted = false)
    (hholds : ∀ j, a'.holds j = a.holds j) (hjoined : a'.pc.joined = a.pc.joined)
    (haborted : a.aborted = true → a'.aborted = true) :
    Inv { t with callers := t.callers.set c a' } := by
  have hlt : c < t.callers.length := (List.getElem?_eq_some_iff.mp ha).1
  have hat : t.callers[c] = a := (List.getElem?_eq_some_iff.mp ha).2
  have hmem : ∀ x ∈ t.callers.set c a', x ∈ t.callers ∨ x = a' := fun x hx =>
    List.mem_or_eq_of_mem_set hx
  have hgrows : Grows t { t with callers := t.callers.set c a' } :=
    ⟨fun j b hb => ⟨b, hb, rfl, id, fun _ => id⟩, fun i r hr => ⟨r, hr, rfl, fun _ => id⟩⟩
  refine ⟨fun x hx => ?_, fun j b hb => ?_, h.listed, fun i r hr => ?_, h.current⟩
  · rcases hmem x hx with hx | rfl
    · exact ⟨(h.callers x hx).1.grows hgrows, (h.callers x hx).2⟩
    · exact ⟨hok.grows hgrows, hunsignalled⟩
  · have hold := h.jobs j b hb
    refine ⟨?_, hold.listed, fun hb' => ⟨(hold.empty hb').1, fun x hx hj => ?_⟩, hold.ended, hold.result⟩
    · show b.waiters = (t.callers.set c a').countP (Caller.holds j)
      rw [List.countP_set hlt, hat, hholds, hold.waiters]
      split
      next hyes =>
        have hpos : 0 < t.callers.countP (Caller.holds j) :=
          List.countP_pos_iff.mpr ⟨a, List.mem_of_getElem? ha, hyes⟩
        omega
      · omega
    · rcases hmem x hx with hx | rfl
      · exact (hold.empty hb').2 x hx hj
      · exact haborted ((hold.empty hb').2 a (List.mem_of_getElem? ha) (hjoined ▸ hj))
  · have hold := h.recoveries i r hr
    refine ⟨hold.current, fun k hk => ?_, hold.result⟩
    obtain ⟨x, hx, hs⟩ := hold.opening k hk
    show ∃ x, (t.callers.set c a')[k]? = some x ∧ x.signal = false
    by_cases heq : c = k
    · subst heq
      rw [ha] at hx
      obtain rfl := Option.some.inj hx
      exact ⟨a', List.getElem?_set_self hlt, hsignal.trans hs⟩
    · exact ⟨x, (List.getElem?_set_ne heq).trans hx, hs⟩

omit [DecidableEq H] in
/-- **A job goes on**, with the same callers. -/
theorem Inv.setJob (h : Inv t) {j : Nat} {b b' : Job H} {jobs : List (Job H)}
    (hj : t.jobs[j]? = some b) (hget : ∀ k, jobs[k]? = if k = j then some b' else t.jobs[k]?)
    (hhash : b'.hash = b.hash) (haborted : b'.aborted = b.aborted) (hwaiters : b'.waiters = b.waiters)
    (hsettled : b'.settled = b.settled)
    (hstage : ∀ result, b.stage = .returned result → b'.stage = .returned result)
    (hresult : ∀ result, b'.stage = .returned result →
      result ≠ .error .own ∧ (result = .error .abandoned → b'.aborted = true)) :
    Inv { t with jobs := jobs } := by
  have hold := h.jobs j b hj
  have hself : jobs[j]? = some b' := (hget j).trans (if_pos rfl)
  have hgrows : Grows t { t with jobs := jobs } := by
    refine ⟨fun k x hx => ?_, fun i r hr => ⟨r, hr, rfl, fun _ => id⟩⟩
    by_cases hk : k = j
    · subst hk
      rw [hj] at hx
      obtain rfl := Option.some.inj hx
      refine ⟨b', hself, hhash, fun hb => haborted.trans hb, fun result hs => ?_⟩
      exact ⟨hsettled.trans hs.1, haborted.trans hs.2.1, hstage result hs.2.2⟩
    · exact ⟨x, (hget k).trans ((if_neg hk).trans hx), rfl, id, fun _ => id⟩
  refine ⟨fun x hx => ⟨(h.callers x hx).1.grows hgrows, (h.callers x hx).2⟩, fun k x hx => ?_,
    fun hash k hk => ?_, fun i r hr => ?_, h.current⟩
  · have hx' : jobs[k]? = some x := hx
    rw [hget] at hx'
    split at hx'
    next hk =>
      obtain rfl := Option.some.inj hx'
      rw [hk]
      refine ⟨hwaiters.trans hold.waiters, fun hs => ?_, fun hb => ?_, fun hs => ?_, hresult⟩
      · rw [hhash]
        exact hold.listed (hsettled.symm.trans hs)
      · rw [hwaiters]
        exact hold.empty (haborted.symm.trans hb)
      · obtain ⟨result, hr⟩ := hold.ended (hsettled.symm.trans hs)
        exact ⟨result, hstage result hr⟩
    · have hx := h.jobs k x hx'
      exact ⟨hx.waiters, hx.listed, hx.empty, hx.ended, hx.result⟩
  · obtain ⟨x, hx, hh, hs⟩ := h.listed hash k hk
    by_cases heq : k = j
    · subst heq
      rw [hj] at hx
      obtain rfl := Option.some.inj hx
      exact ⟨b', hself, hhash.trans hh, hsettled.trans hs⟩
    · exact ⟨x, (hget k).trans ((if_neg heq).trans hx), hh, hs⟩
  · have hr' := h.recoveries i r hr
    exact ⟨hr'.current, hr'.opening, hr'.result⟩

omit [DecidableEq H] in
theorem getElem?_put {α : Type} {l : List α} {j : Nat} {x y : α} (hx : l[j]? = some x) (k : Nat) :
    (l.set j y)[k]? = if k = j then some y else l[k]? := by
  have hlt : j < l.length := (List.getElem?_eq_some_iff.mp hx).1
  by_cases hk : k = j
  · rw [if_pos hk, hk, List.getElem?_set_self hlt]
  · rw [if_neg hk, List.getElem?_set_ne (Ne.symm hk)]

omit [DecidableEq H] in
theorem getElem?_alter {α : Type} {l : List α} {j : Nat} {x : α} (hx : l[j]? = some x) (f : α → α)
    (k : Nat) : (l.modify j f)[k]? = if k = j then some (f x) else l[k]? := by
  rw [List.getElem?_modify]
  by_cases hk : k = j
  · subst hk
    rw [if_pos rfl, hx, Option.map_eq_map, Option.map_some, if_pos rfl]
  · rw [if_neg hk, Option.map_eq_map]
    cases l[k]? with
    | none => rfl
    | some y =>
      rw [Option.map_some, if_neg (Ne.symm hk)]

omit [DecidableEq H] in
theorem getElem?_more {α : Type} (l : List α) (x : α) (k : Nat) :
    (l ++ [x])[k]? = if k = l.length then some x else l[k]? := by
  by_cases hk : k = l.length
  · rw [if_pos hk, hk, List.getElem?_concat_length]
  · rw [if_neg hk]
    by_cases hlt : k < l.length
    · exact List.getElem?_append_left hlt
    · have hlength : (l ++ [x]).length ≤ k := by
        rw [List.length_append, List.length_singleton]
        omega
      rw [List.getElem?_eq_none hlength, List.getElem?_eq_none (Nat.le_of_not_lt hlt)]

omit [DecidableEq H] in
/-- The two maps that no caller and no job looks back at. -/
theorem Inv.maps (h : Inv t) (entries : H → Option Nat) (known : H → Bool) :
    Inv { t with entries, known } := by
  refine ⟨h.callers, fun j b hb => ?_, h.listed, fun i r hr => ?_, h.current⟩
  · have hj := h.jobs j b hb
    exact ⟨hj.waiters, hj.listed, hj.empty, hj.ended, hj.result⟩
  · have hi := h.recoveries i r hr
    exact ⟨hi.current, hi.opening, hi.result⟩

theorem Inv.remove (h : Inv t) (hash : H) : Inv (t.remove hash) := by
  unfold Transport.remove
  cases t.entries hash with
  | none => exact h
  | some j =>
    dsimp only
    cases hj : t.jobs[j]? with
    | none =>
      have hsame : t.jobs.modify j (fun b => { b with error := some "CANCELLED", destroyed := true }) =
          t.jobs := by
        apply List.ext_getElem?
        intro k
        rw [List.getElem?_modify]
        by_cases hk : j = k
        · subst hk
          rw [hj]
          rfl
        · cases t.jobs[k]? with
          | none => rfl
          | some b =>
            rw [Option.map_eq_map, Option.map_some, if_neg hk]
      rw [hsame]
      exact h.maps _ _
    | some b =>
      have hset := h.setJob hj
        (getElem?_alter hj fun b => { b with error := some "CANCELLED", destroyed := true })
        rfl rfl rfl rfl (fun _ hs => hs) (h.jobs j b hj).result
      exact hset.maps _ _

theorem Inv.drop (h : Inv t) (hash : H) (j : Nat) : Inv (t.drop hash j) := by
  unfold Transport.drop
  split
  · exact h.remove hash
  · exact h

end Operations

/-! ## §3. The turns of a job. -/

/-- What one turn of a job can do to it. -/
structure Turned (b b' : Job H) : Prop where
  hash : b'.hash = b.hash
  aborted : b'.aborted = b.aborted
  waiters : b'.waiters = b.waiters
  settled : b'.settled = b.settled
  returned : ∀ result, b.stage = .returned result → b'.stage = .returned result
  result : ∀ result, b'.stage = .returned result → b.stage = .returned result ∨
    result ≠ .error .own ∧ (result = .error .abandoned → b.aborted = true)

section Turns

variable {b b' : Job H}

omit [DecidableEq H]

theorem turned_stage {stage : Stage} (hlive : ∀ result, b.stage ≠ .returned result)
    (hresult : ∀ result, stage = .returned result →
      result ≠ .error .own ∧ (result = .error .abandoned → b.aborted = true)) :
    Turned b { b with stage } :=
  ⟨rfl, rfl, rfl, rfl, fun result h => absurd h (hlive result),
    fun result h => Or.inr (hresult result h)⟩

theorem turned_check {next : Stage} (hlive : ∀ result, b.stage ≠ .returned result)
    (hnext : ∀ result, next ≠ .returned result) : Turned b (b.check next) := by
  refine turned_stage hlive fun result h => ?_
  split at h
  next haborted =>
    obtain rfl := Stage.returned.inj h
    exact ⟨(by intro heq; cases heq), fun _ => haborted⟩
  · exact absurd h (hnext result)

theorem turned_error (code : String) (hlive : ∀ result, b.stage ≠ .returned result) :
    Turned b { b with stage := .returned (.error (.error code)) } := by
  refine turned_stage hlive fun result h => ?_
  obtain rfl := Stage.returned.inj h
  exact ⟨(by intro heq; cases heq), (by intro heq; cases heq)⟩

theorem turned_fail (code : String) (error : Option String) :
    Turned b { b.fail code with error } := by
  unfold Job.fail
  refine ⟨rfl, rfl, rfl, rfl, fun result h => ?_, fun result h => ?_⟩
  · show (if b.stage = .added then _ else b.stage) = _
    rw [h, if_neg (by intro heq; cases heq)]
  · have h' : (if b.stage = .added then Stage.returned (.error (.error code)) else b.stage) =
        .returned result := h
    split at h'
    · obtain rfl := Stage.returned.inj h'
      exact Or.inr ⟨(by intro heq; cases heq), (by intro heq; cases heq)⟩
    · exact Or.inl h'

/-- **One turn.** -/
theorem turned_of_turn {turn : Turn} (h : b.turn turn = some b') : Turned b b' := by
  cases turn with
  | begin =>
    simp only [Job.turn] at h
    split at h
    next metadata hstage =>
      -- A job that has returned takes no further turn.
      have hlive : ∀ result, b.stage ≠ .returned result := by
        intro result heq
        rw [hstage] at heq
        cases heq
      rw [← Option.some.inj h]
      split
      · exact turned_check hlive (by intro result heq; cases heq)
      · exact turned_stage hlive (by intro result heq; cases heq)
    · cases h
  | discovered result =>
    simp only [Job.turn] at h
    split at h
    next hstage =>
      have hlive : ∀ result, b.stage ≠ .returned result := by
        intro result heq
        rw [hstage] at heq
        cases heq
      cases result with
      | error code => exact Option.some.inj h ▸ turned_error code hlive
      | ok _ => exact Option.some.inj h ▸ turned_check hlive (by intro result heq; cases heq)
    · cases h
  | interrupted =>
    simp only [Job.turn] at h
    split at h
    next hstage =>
      rw [← Option.some.inj h]
      refine turned_stage (fun result heq => ?_) fun result heq => ?_
      · rcases hstage.1 with hs | hs
        · rw [hs] at heq
          cases heq
        · rw [hs] at heq
          cases heq
      · obtain rfl := Stage.returned.inj heq
        exact ⟨(by intro heq; cases heq), fun _ => hstage.2⟩
    · cases h
  | verified result =>
    simp only [Job.turn] at h
    split at h
    next hstage =>
      have hlive : ∀ result, b.stage ≠ .returned result := by
        intro result heq
        rw [hstage] at heq
        cases heq
      cases result with
      | error code => exact Option.some.inj h ▸ turned_error code hlive
      | ok _ => exact Option.some.inj h ▸ turned_check hlive (by intro result heq; cases heq)
    · cases h
  | initialized result =>
    simp only [Job.turn] at h
    split at h
    next hstage =>
      have hlive : ∀ result, b.stage ≠ .returned result := by
        intro result heq
        rw [hstage] at heq
        cases heq
      cases result with
      | error code => exact Option.some.inj h ▸ turned_error code hlive
      | ok _ => exact Option.some.inj h ▸ turned_check hlive (by intro result heq; cases heq)
    · cases h
  | ready =>
    simp only [Job.turn] at h
    split at h
    next hstage =>
      rw [← Option.some.inj h]
      refine turned_stage (fun result heq => ?_) fun result heq => ?_
      · rw [hstage] at heq
        cases heq
      · obtain rfl := Stage.returned.inj heq
        exact ⟨(by intro heq; cases heq), (by intro heq; cases heq)⟩
    · cases h
  | expired =>
    simp only [Job.turn] at h
    split at h
    · exact Option.some.inj h ▸ turned_fail _ _
    · cases h
  | errored code =>
    simp only [Job.turn] at h
    split at h
    · exact Option.some.inj h ▸ turned_fail _ _
    · cases h
  | closed =>
    simp only [Job.turn] at h
    split at h
    · exact Option.some.inj h ▸ turned_fail _ _
    · cases h
  | failed code =>
    simp only [Job.turn] at h
    split at h
    · rw [← Option.some.inj h]
      exact ⟨rfl, rfl, rfl, rfl, fun _ => id, fun _ => Or.inl⟩
    · cases h
  | destroyed =>
    simp only [Job.turn] at h
    split at h
    · rw [← Option.some.inj h]
      exact ⟨rfl, rfl, rfl, rfl, fun _ => id, fun _ => Or.inl⟩
    · cases h

end Turns

end My98.Web.TorrentOpening
