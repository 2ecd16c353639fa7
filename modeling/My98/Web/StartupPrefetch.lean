/-
  My98.Web.StartupPrefetch — reading a disk ahead while its saved state is restored
  (`StartupPrefetch` of `src/disk/web/startup-prefetch.js`).

  A job loads the profile of the published state, computes which bytes of the disk it names, and has
  them fetched, at most `maxAttempts` times.  It never owns the state: whoever restores it calls
  `validate` with the origin of what was restored and `commit` when it is in place, in any order with
  the job's own steps, and may cancel.  The job settles ONCE: `complete`, or `fallback`.

  One list of events is one run.  The awaited calls end when and how the run says; the messages of
  `progress` are any messages.

    • `Inv`, `inv_step` — what holds between any two events;
    • `settled_step`    — a job that has settled does nothing more;
    • `job_runs`        — every run.
-/
import Mathlib
import My98.Lib.Machine
import My98.Web.StartupTargets

namespace My98.Web.StartupPrefetch

open My98.Lib My98.Lib.JsonText My98.Torrent.Formats My98.Web.LoadProfiles My98.Web.Startup

/-! ## §1. The code. -/

/-- `a===b`, of values with no reference in common. -/
def strictEqual : Option Tree → Option Tree → Bool
  | none, none => true
  | some .null, some .null => true
  | some (.bool a), some (.bool b) => a == b
  | some (.num a), some (.num b) => decide (jsNumber (.num a) = jsNumber (.num b))
  | some (.str a), some (.str b) => decide (jsString a = jsString b)
  | _, _ => false

/-- `v?.name`. -/
def member (v : Option Tree) (name : String) : Option Tree := v.bind fun v => prop v name

def sameOrigin (a b : Option Tree) : Bool :=
  strictEqual (member a "kind") (member b "kind") &&
    (strictEqual (member a "kind") (some (.str boot)) ||
      strictEqual (member a "sha256") (member b "sha256"))

/-- The codes after which there is no other attempt. -/
def permanent : List String :=
  ["INVALID_PROFILE", "INVALID_PUBLICATION", "INVALID_RANGE", "INVALID_STATE"]

/-- The sum of two safe integers, which above `2 ^ 53` is rounded to an even one. -/
def plus (a b : ℤ) : ℤ :=
  if a + b ≤ 2 ^ 53 then a + b
  else if (a + b) % 4 = 1 then a + b - 1
  else if (a + b) % 4 = 3 then a + b + 1
  else a + b

/-- What is to be fetched: `startupRanges`. -/
abbrev Target := List (ℚ × ℚ) × ℤ

/-- The component whose recovery the next attempt begins with. -/
inductive Kind where
  | profile
  | disk
  deriving DecidableEq

inductive Call where
  | prepare
  | recover (kind : Kind)
  | loadProfiles (units : ℚ)
  | prefetch (id : String) (ranges : List (ℚ × ℚ)) (windowPieces : Nat)
  deriving DecidableEq

/-- What `run` awaits. -/
inductive Pc where
  | created
  | prepare
  | recover (kind : Kind)
  | loadProfiles
  | prefetch (target : Target)
  | returned
  deriving DecidableEq

inductive Ending where
  | complete
  | fallback
  deriving DecidableEq

structure Outcome where
  outcome : Ending
  attempts : Nat
  reason : Option String
  deriving DecidableEq

structure Options where
  maxAttempts : Nat
  postRestoreBudgetMs : Nat
  windowPieces : Nat

/-- The fields that the constructor sets for good. -/
structure Setup where
  id : String
  options : Options
  logicalSize : Nat
  diskSize : Nat
  stateHash : Option Tree
  profileHash : Option String

/-- A job, with what it has done to its surroundings: the calls it made, the timers it set, what it
gave to `onProgress` and to `onOutcome`. -/
structure Job where
  setup : Setup
  pc : Pc
  /-- `controller.signal.aborted`. -/
  aborted : Bool
  attempts : Nat
  attemptId : Option String
  profileCompleted : ℤ
  stateCompleted : ℤ
  lastCompleted : ℤ
  profileTotal : Option ℤ
  stateTotal : Option ℤ
  committed : Bool
  settled : Bool
  downloadComplete : Bool
  origin : Option Tree
  profile : Option Tree
  /-- `abort` listens to the owner's signal. -/
  listening : Bool
  /-- The timer is set, and not cleared. -/
  ticking : Bool
  calls : List Call
  timers : List Nat
  progressed : List (ℤ × ℤ)
  outcomes : List Outcome

def Job.current (j : Job) : Prop := j.settled = false ∧ j.aborted = false

instance (j : Job) : Decidable j.current := inferInstanceAs (Decidable (_ ∧ _))

def Job.finish (j : Job) (outcome : Ending) (reason : Option String) : Job :=
  if j.settled then j
  else { j with
    settled := true
    listening := false
    ticking := false
    aborted := j.aborted || outcome = .fallback
    outcomes := j.outcomes ++ [{ outcome, attempts := j.attempts, reason }] }

def Job.cancel (j : Job) (reason : String) : Job := j.finish .fallback (some reason)

/-- `error?.code||'TRANSPORT_ERROR'`. -/
def codeOr (fallback : String) (code : Option String) : String :=
  match code with
  | none => fallback
  | some code => if code = "" then fallback else code

def Job.complete (j : Job) : Job :=
  if j.current ∧ j.downloadComplete = true ∧ j.origin.any truthy = true ∧
      sameOrigin (member j.profile "origin") j.origin = true then
    j.finish .complete none
  else j

def Job.validate (j : Job) (origin : Option Tree) : Job :=
  if j.current then
    let j := { j with origin }
    if j.profile.isSome = true ∧ sameOrigin (member j.profile "origin") origin = false then
      j.finish .fallback (some "PROFILE_MISMATCH")
    else j.complete
  else j

def Job.commit (j : Job) : Job :=
  if j.committed = true ∨ j.settled = true then j
  else
    { j with
      committed := true
      ticking := true
      timers := j.timers ++ [j.setup.options.postRestoreBudgetMs] }.complete

def Job.emit (j : Job) : Job :=
  match j.stateTotal, j.profileTotal with
  | some state, some profile =>
    if j.current then
      let total := plus state profile
      let completed := min total (max j.lastCompleted (plus j.stateCompleted j.profileCompleted))
      { j with lastCompleted := completed, progressed := j.progressed ++ [(completed, total)] }
    else j
  | _, _ => j

/-- `value.startupPrefetch`, whose numbers may be missing or anything else. -/
structure Part where
  id : Option String
  completed : Option ℚ
  total : Option ℚ

/-- A message of the transport. -/
structure Message where
  infoHash : Option Tree
  size : Option ℚ
  coveredBytes : Option ℚ
  startupPrefetch : Option Part

/-- The state's size and what there is of it, if the message is about the state. -/
def stateProgress (stateHash : Option Tree) (m : Message) : Option (ℤ × ℤ) :=
  match safeInteger? m.size, safeInteger? m.coveredBytes with
  | some size, some covered =>
    if strictEqual m.infoHash stateHash = true ∧ 0 < size ∧ 0 ≤ covered ∧ covered ≤ size then
      some (size, covered)
    else none
  | _, _ => none

/-- What there is of the target, if the part is of this attempt. -/
def Job.profileProgress (j : Job) (p : Part) : Option ℤ :=
  match p.total, j.profileTotal, safeInteger? p.completed with
  | some total, some expected, some completed =>
    if p.id = j.attemptId ∧ total = expected ∧ 0 ≤ completed ∧ (completed : ℚ) ≤ total then some completed
    else none
  | _, _, _ => none

/-- The part of a message that is about the prefetch. -/
def Job.addPart (j : Job) (m : Message) : Job :=
  match m.startupPrefetch.bind j.profileProgress with
  | some completed => { j with profileCompleted := max j.profileCompleted completed }.emit
  | none => j.emit

def Job.progress (j : Job) (m : Message) : Job :=
  if j.current then
    match stateProgress j.setup.stateHash m with
    | some (size, covered) =>
      if j.stateTotal.isSome = true ∧ j.stateTotal ≠ some size then j
      else
        { j with
          stateTotal := some size
          stateCompleted := max j.stateCompleted covered }.addPart m
    | none => j.addPart m
  else j

def Job.return (j : Job) : Job := { j with pc := .returned }

/-- The call of `loadProfiles`, after `if(!this.current())return`. -/
def Job.load (j : Job) : Job :=
  if j.current then
    { j with
      pc := .loadProfiles
      calls := j.calls ++ [.loadProfiles ⌈(j.setup.logicalSize : ℚ) / 65536⌉] }
  else j.return

/-- The condition of the loop, and a turn of it up to its first `await`. -/
def Job.attempt (j : Job) (failedKind : Option Kind) : Job :=
  if j.current ∧ j.attempts < j.setup.options.maxAttempts then
    let j := { j with
      attempts := j.attempts + 1
      attemptId := some (j.setup.id ++ ":" ++ toString (j.attempts + 1)) }
    match failedKind with
    | some kind => { j with pc := .recover kind, calls := j.calls ++ [.recover kind] }
    | none => j.load
  else j.return

/-- The `catch` of the loop. -/
def Job.fail (j : Job) (stage : Kind) (code : Option String) : Job :=
  if j.current then
    let code := codeOr "TRANSPORT_ERROR" code
    if code ∈ permanent ∨ code = "CANCELLED" ∨ j.attempts = j.setup.options.maxAttempts then
      (j.finish .fallback (some code)).return
    else j.attempt (some stage)
  else j.return

/-- `run`, up to its first `await`. -/
def Job.begin (j : Job) : Job :=
  if j.current then { j with pc := .prepare, calls := j.calls ++ [.prepare] } else j.return

abbrev Result (α : Type) := Except (Option String) α

/-- After `prepare`; a failure there ends `run`. -/
def Job.prepared (j : Job) : Result Unit → Job
  | .error code => (j.finish .fallback (some (codeOr "TRANSPORT_ERROR" code))).return
  | .ok _ =>
    if j.current then
      if j.setup.profileHash.all (· = "") then (j.finish .fallback (some "NO_PROFILE")).return
      else j.attempt none
    else j.return

def Job.recovered (j : Job) (kind : Kind) : Result Unit → Job
  | .error code => j.fail kind code
  | .ok _ => j.load

/-- The profile has a target. -/
def Job.aim (j : Job) (target : Target) : Job :=
  if j.profileTotal.isSome = true ∧ j.profileTotal ≠ some target.2 then
    j.fail .profile (some "INVALID_PROFILE")
  else
    let j := { j with profileTotal := some target.2 }.emit
    { j with
      pc := .prefetch target
      calls := j.calls ++
        [.prefetch (j.attemptId.getD "") target.1 j.setup.options.windowPieces] }

/-- After `loadProfiles`, which returns what `validateLoadProfiles` has accepted. -/
def Job.loaded (j : Job) : Result (List Tree) → Job
  | .error code => j.fail .profile code
  | .ok profiles =>
    if j.current then
      match profiles.find? (fun p => kindOf p = some fromState) with
      | none => (j.finish .fallback (some "NO_PROFILE")).return
      | some profile =>
        if j.origin.any truthy = true ∧ sameOrigin (prop profile "origin") j.origin = false then
          (j.finish .fallback (some "PROFILE_MISMATCH")).return
        else
          let j := { j with profile := some profile }
          match startupRanges profile j.setup.diskSize with
          | none => j.fail .profile (some "INVALID_PROFILE")
          | some target => j.aim target
    else j.return

/-- After `prefetch`: `result?.completed` and `result?.total`. -/
def Job.prefetched (j : Job) (target : Target) : Result (Option ℚ × Option ℚ) → Job
  | .error code => j.fail .disk code
  | .ok (completed, total) =>
    if j.current then
      if completed ≠ some (target.2 : ℚ) ∨ total ≠ some (target.2 : ℚ) then
        j.fail .disk (some "TRANSPORT_ERROR")
      else
        ({ j with profileCompleted := target.2, downloadComplete := true }.emit).complete.return
    else j.return

inductive Event where
  | begin
  | prepared (result : Result Unit)
  | recovered (result : Result Unit)
  | loaded (result : Result (List Tree))
  | prefetched (result : Result (Option ℚ × Option ℚ))
  | validate (origin : Option Tree)
  | commit
  | cancel (reason : String)
  /-- The owner's signal aborts; the code of its reason. -/
  | abort (code : Option String)
  | expire
  | progress (m : Message)

def step (j : Job) : Event → Option Job
  | .begin => if j.pc = .created then some j.begin else none
  | .prepared result => if j.pc = .prepare then some (j.prepared result) else none
  | .recovered result =>
    match j.pc with
    | .recover kind => some (j.recovered kind result)
    | _ => none
  | .loaded result => if j.pc = .loadProfiles then some (j.loaded result) else none
  | .prefetched result =>
    match j.pc with
    | .prefetch target => some (j.prefetched target result)
    | _ => none
  | .validate origin => some (j.validate origin)
  | .commit => some j.commit
  | .cancel reason => some (j.cancel reason)
  | .abort code => some (if j.listening then j.cancel (codeOr "CANCELLED" code) else j)
  | .expire => if j.ticking then some (j.finish .fallback (some "PREFETCH_TIMEOUT")) else none
  | .progress m => some (j.progress m)

/-- The constructor, for a signal that is not aborted. -/
def Job.new (setup : Setup) : Job :=
  { setup, pc := .created, aborted := false, attempts := 0, attemptId := none, profileCompleted := 0,
    stateCompleted := 0, lastCompleted := 0, profileTotal := none, stateTotal := none,
    committed := false, settled := false, downloadComplete := false, origin := none, profile := none,
    listening := true, ticking := false, calls := [], timers := [], progressed := [], outcomes := [] }

/-- The constructor; `aborted` is the code of the reason of a signal that is aborted. -/
def construct (setup : Setup) (aborted : Option (Option String)) : Job :=
  match aborted with
  | none => Job.new setup
  | some code => (Job.new setup).cancel (codeOr "CANCELLED" code)

/-! ## §2. The invariant. -/

/-- `target` is what the profile asks for, and it has been asked for. -/
def Aimed (setup : Setup) (j : Job) (target : Target) : Prop :=
  ∃ profile id, j.profile = some profile ∧ startupRanges profile setup.diskSize = some target ∧
    Call.prefetch id target.1 setup.options.windowPieces ∈ j.calls

/-- What holds between any two events; `past` are the events so far. -/
structure Inv (setup : Setup) (j : Job) (past : List Event) : Prop where
  fixed : j.setup = setup
  attempts : j.attempts ≤ setup.options.maxAttempts
  running : j.settled = false → j.outcomes = [] ∧ j.aborted = false
  once : j.settled = true → ∃ o, j.outcomes = [o] ∧ (o.outcome = .fallback → j.aborted = true)
  timers : j.timers = if j.committed then [setup.options.postRestoreBudgetMs] else []
  uncommitted : j.committed = false → j.settled = false → Event.commit ∉ past
  /-- Every event of progress has the total that the job has now. -/
  total : ∀ e ∈ j.progressed, ∃ state profile, j.stateTotal = some state ∧
    j.profileTotal = some profile ∧ e.2 = plus state profile
  bounded : ∀ e ∈ j.progressed, e.1 ≤ e.2 ∧ e.1 ≤ j.lastCompleted ∧ j.lastCompleted ≤ e.2
  growing : (j.progressed.map Prod.fst).Pairwise (· ≤ ·)
  loaded : ∀ profile, j.profile = some profile →
    ∃ profiles, Event.loaded (.ok profiles) ∈ past ∧ profile ∈ profiles
  target : ∀ target, j.pc = .prefetch target → Aimed setup j target
  downloaded : j.downloadComplete = true → j.pc = .returned ∧ ∃ target, Aimed setup j target ∧
    Event.prefetched (.ok (some (target.2 : ℚ), some (target.2 : ℚ))) ∈ past
  origin : ∀ origin, j.origin = some origin → Event.validate (some origin) ∈ past
  complete : ∀ o ∈ j.outcomes, o.outcome = .complete → j.downloadComplete = true ∧
    j.origin.any truthy = true ∧ sameOrigin (member j.profile "origin") j.origin = true

/-- A new job keeps the invariant. -/
theorem inv_new (setup : Setup) : Inv setup (Job.new setup) [] := by
  refine ⟨rfl, Nat.zero_le _, fun _ => ⟨rfl, rfl⟩, fun h => ?_, rfl, fun _ _ => List.not_mem_nil,
    fun e he => ?_, fun e he => ?_, List.Pairwise.nil, fun profile h => ?_, fun target h => ?_,
    fun h => ?_, fun origin h => ?_, fun o ho => ?_⟩
  · cases h
  · cases he
  · cases he
  · cases h
  · cases h
  · cases h
  · cases h
  · cases ho

section Operations

variable {setup : Setup} {j : Job} {past : List Event}

/-- An event that is no first commit may be added to the past. -/
theorem Inv.mono (h : Inv setup j past) (e : Event)
    (he : e = .commit → j.committed = true ∨ j.settled = true) : Inv setup j (past ++ [e]) := by
  refine { h with
    uncommitted := fun hc hs hmem => ?_
    loaded := fun profile hp => ?_
    downloaded := fun hd => ?_
    origin := fun origin ho => ?_ }
  · rcases List.mem_append.mp hmem with hmem | hmem
    · exact h.uncommitted hc hs hmem
    · rcases he (List.mem_singleton.mp hmem).symm with h' | h'
      · rw [hc] at h'
        cases h'
      · rw [hs] at h'
        cases h'
  · obtain ⟨profiles, hmem, hprofile⟩ := h.loaded profile hp
    exact ⟨profiles, List.mem_append_left _ hmem, hprofile⟩
  · obtain ⟨hpc, target, haimed, hmem⟩ := h.downloaded hd
    exact ⟨hpc, target, haimed, List.mem_append_left _ hmem⟩
  · exact List.mem_append_left _ (h.origin origin ho)

/-- **Settling.** -/
theorem Inv.finish (h : Inv setup j past) {outcome : Ending} {reason : Option String}
    (hcomplete : outcome = .complete → j.downloadComplete = true ∧ j.origin.any truthy = true ∧
      sameOrigin (member j.profile "origin") j.origin = true) :
    Inv setup (j.finish outcome reason) past := by
  unfold Job.finish
  cases hsettled : j.settled with
  | true =>
    rw [if_pos rfl]
    exact h
  | false =>
    rw [if_neg Bool.false_ne_true]
    obtain ⟨hnone, -⟩ := h.running hsettled
    refine { h with
      running := fun hs => by cases hs
      uncommitted := fun _ hs => by cases hs
      once := fun _ => ⟨{ outcome, attempts := j.attempts, reason }, ?_, fun hf => ?_⟩
      complete := fun o ho hend => ?_ }
    · show j.outcomes ++ [_] = _
      rw [hnone]
      rfl
    · show (j.aborted || decide (outcome = .fallback)) = true
      have hfallback : outcome = .fallback := hf
      rw [hfallback, decide_eq_true rfl, Bool.or_true]
    · have ho' : o ∈ j.outcomes ++ [{ outcome, attempts := j.attempts, reason }] := ho
      rw [hnone] at ho'
      obtain rfl := List.mem_singleton.mp ho'
      exact hcomplete hend

/-- A job may end as a fallback. -/
theorem Inv.fallback (h : Inv setup j past) (reason : Option String) :
    Inv setup (j.finish .fallback reason) past := h.finish (by intro heq; cases heq)

/-- It may end as complete. -/
theorem Inv.finishComplete (h : Inv setup j past) : Inv setup j.complete past := by
  unfold Job.complete
  split
  next hready => exact h.finish fun _ => hready.2
  · exact h

/-- All that an event of progress changes. -/
theorem emit_keeps (j : Job) :
    ∃ lastCompleted progressed, j.emit = { j with lastCompleted, progressed } := by
  unfold Job.emit
  split
  · split
    · exact ⟨_, _, rfl⟩
    · exact ⟨j.lastCompleted, j.progressed, rfl⟩
  · exact ⟨j.lastCompleted, j.progressed, rfl⟩

/-- **An event of progress.** -/
theorem Inv.emit (h : Inv setup j past) : Inv setup j.emit past := by
  unfold Job.emit
  split
  next state profile hstate hprofile =>
    split
    next hcurrent =>
      have hold : ∀ e ∈ j.progressed, e.2 = plus state profile := by
        intro e he
        obtain ⟨state', profile', hstate', hprofile', heq⟩ := h.total e he
        rw [Option.some.inj (hstate.symm.trans hstate'), Option.some.inj (hprofile.symm.trans hprofile')]
        exact heq
      have hlast : ∀ e ∈ j.progressed, e.1 ≤ min (plus state profile)
          (max j.lastCompleted (plus j.stateCompleted j.profileCompleted)) := by
        intro e he
        obtain ⟨-, hle, hbound⟩ := h.bounded e he
        rw [hold e he] at hbound
        exact le_min (hle.trans hbound) (hle.trans (le_max_left _ _))
      refine { h with
        total := fun e he => ⟨state, profile, hstate, hprofile, ?_⟩
        bounded := fun e he => ?_
        growing := ?_ }
      · rcases List.mem_append.mp he with he | he
        · exact hold e he
        · rw [List.mem_singleton.mp he]
      · rcases List.mem_append.mp he with he | he
        · refine ⟨(h.bounded e he).1, hlast e he, ?_⟩
          rw [hold e he]
          exact min_le_left _ _
        · rw [List.mem_singleton.mp he]
          exact ⟨min_le_left _ _, le_rfl, min_le_left _ _⟩
      · show ((j.progressed ++ [_]).map Prod.fst).Pairwise (· ≤ ·)
        rw [List.map_append, List.pairwise_append]
        refine ⟨h.growing, List.pairwise_singleton _ _, fun a ha b hb => ?_⟩
        obtain ⟨e, he, rfl⟩ := List.mem_map.mp ha
        rw [List.mem_singleton.mp hb]
        exact hlast e he
    · exact h
  · exact h

/-- Going on at another `await`, which a job that has downloaded everything does not. -/
theorem Inv.goto (h : Inv setup j past) {pc : Pc} {calls : List Call}
    (hmore : j.downloadComplete = false)
    (htarget : ∀ target, pc = .prefetch target → Aimed setup { j with pc, calls } target) :
    Inv setup { j with pc, calls } past := by
  refine { h with target := htarget, downloaded := fun hd => ?_ }
  have hd' : j.downloadComplete = true := hd
  rw [hmore] at hd'
  cases hd'

/-- It may return. -/
theorem Inv.return (h : Inv setup j past) : Inv setup j.return past := by
  refine { h with target := fun target heq => ?_, downloaded := fun hd => ⟨rfl, (h.downloaded hd).2⟩ }
  cases heq

/-- It may load the profiles, while the download is not complete. -/
theorem Inv.load (h : Inv setup j past) (hmore : j.downloadComplete = false) :
    Inv setup j.load past := by
  unfold Job.load
  split
  · exact h.goto hmore (by intro target heq; cases heq)
  · exact h.return

/-- **Another attempt.** -/
theorem Inv.attempt (h : Inv setup j past) (hmore : j.downloadComplete = false)
    (failedKind : Option Kind) : Inv setup (j.attempt failedKind) past := by
  unfold Job.attempt
  split
  next hloop =>
    have hlt := hloop.2
    rw [h.fixed] at hlt
    have hnext : Inv setup { j with
        attempts := j.attempts + 1
        attemptId := some (j.setup.id ++ ":" ++ toString (j.attempts + 1)) } past :=
      { h with attempts := hlt }
    cases failedKind with
    | none => exact hnext.load hmore
    | some kind => exact hnext.goto hmore (by intro target heq; cases heq)
  · exact h.return

/-- It may fail. -/
theorem Inv.fail (h : Inv setup j past) (hmore : j.downloadComplete = false) (stage : Kind)
    (code : Option String) : Inv setup (j.fail stage code) past := by
  unfold Job.fail
  split
  · dsimp only
    split
    · exact (h.fallback _).return
    · exact h.attempt hmore _
  · exact h.return

/-- A report does not depend on whether the job has returned. -/
theorem return_emit (j : Job) : j.emit.return = j.return.emit := by
  have hcurrent : j.return.current ↔ j.current := Iff.rfl
  unfold Job.emit
  rw [show j.return.stateTotal = j.stateTotal from rfl, show j.return.profileTotal = j.profileTotal from rfl]
  cases j.stateTotal with
  | none => rfl
  | some state =>
    cases j.profileTotal with
    | none => rfl
    | some profile =>
      dsimp only
      by_cases h : j.current
      · rw [if_pos h, if_pos (hcurrent.mpr h)]
        rfl
      · rw [if_neg h, if_neg (mt hcurrent.mp h)]

/-- Nor does the ending. -/
theorem return_finish (j : Job) (outcome : Ending) (reason : Option String) :
    (j.finish outcome reason).return = j.return.finish outcome reason := by
  unfold Job.finish Job.return
  dsimp only
  split <;> rfl

/-- Nor does completion. -/
theorem return_complete (j : Job) : j.complete.return = j.return.complete := by
  unfold Job.complete
  by_cases h : j.current ∧ j.downloadComplete = true ∧ j.origin.any truthy = true ∧
      sameOrigin (member j.profile "origin") j.origin = true
  · have h' : j.return.current ∧ j.return.downloadComplete = true ∧ j.return.origin.any truthy = true ∧
      sameOrigin (member j.return.profile "origin") j.return.origin = true := h
    rw [if_pos h, if_pos h', return_finish]
  · have h' : ¬(j.return.current ∧ j.return.downloadComplete = true ∧
      j.return.origin.any truthy = true ∧
      sameOrigin (member j.return.profile "origin") j.return.origin = true) := h
    rw [if_neg h, if_neg h']

/-! ## §3. The steps. -/

/-- A job that has not returned waits for the download. -/
theorem Inv.waiting (h : Inv setup j past) (hpc : j.pc ≠ .returned) : j.downloadComplete = false := by
  cases hd : j.downloadComplete with
  | false => rfl
  | true => exact absurd (h.downloaded hd).1 hpc

/-- A current job has no outcome yet. -/
theorem Inv.unsettled (h : Inv setup j past) (hcurrent : j.current) : j.outcomes = [] :=
  (h.running hcurrent.1).1

/-- The end of the preparation keeps the invariant. -/
theorem Inv.prepared (h : Inv setup j past) (hpc : j.pc = .prepare) (result : Result Unit) :
    Inv setup (j.prepared result) past := by
  have hmore : j.downloadComplete = false := h.waiting (by rw [hpc]; intro heq; cases heq)
  unfold Job.prepared
  cases result with
  | error code => exact (h.fallback _).return
  | ok _ =>
    dsimp only
    split
    · split
      · exact (h.fallback _).return
      · exact h.attempt hmore none
    · exact h.return

/-- So does the end of a recovery. -/
theorem Inv.recovered (h : Inv setup j past) {kind : Kind} (hpc : j.pc = .recover kind)
    (result : Result Unit) : Inv setup (j.recovered kind result) past := by
  have hmore : j.downloadComplete = false := h.waiting (by rw [hpc]; intro heq; cases heq)
  cases result with
  | error code => exact h.fail hmore kind code
  | ok _ => exact h.load hmore

/-- The target stays the same. -/
theorem Inv.aim (h : Inv setup j past) (hmore : j.downloadComplete = false) {profile : Tree}
    {target : Target} (hprofile : j.profile = some profile)
    (htarget : startupRanges profile setup.diskSize = some target) : Inv setup (j.aim target) past := by
  unfold Job.aim
  split
  · exact h.fail hmore _ _
  next hsame =>
    have hset : Inv setup { j with profileTotal := some target.2 } past := by
      refine { h with total := fun e he => ?_ }
      obtain ⟨state, total, hstate, htotal, heq⟩ := h.total e he
      have hequal : j.profileTotal = some target.2 := by
        by_contra hne
        exact hsame ⟨by rw [htotal]; rfl, hne⟩
      exact ⟨state, total, hstate, hequal.symm.trans htotal, heq⟩
    have hemit := hset.emit
    obtain ⟨last, progressed, heq⟩ := emit_keeps { j with profileTotal := some target.2 }
    rw [heq] at hemit ⊢
    refine hemit.goto hmore fun t ht => ⟨profile, j.attemptId.getD "", hprofile, ?_, ?_⟩
    · rw [← Pc.prefetch.inj ht]
      exact htarget
    · rw [← Pc.prefetch.inj ht, ← h.fixed]
      exact List.mem_append_right _ (List.mem_singleton_self _)

/-- So does the answer with the profiles. -/
theorem Inv.profiled (h : Inv setup j past) (hpc : j.pc = .loadProfiles) (result : Result (List Tree))
    (hmem : Event.loaded result ∈ past) : Inv setup (j.loaded result) past := by
  have hmore : j.downloadComplete = false := h.waiting (by rw [hpc]; intro heq; cases heq)
  unfold Job.loaded
  cases result with
  | error code => exact h.fail hmore _ code
  | ok profiles =>
    dsimp only
    split
    next hcurrent =>
      split
      · exact (h.fallback _).return
      next profile hfind =>
        split
        · exact (h.fallback _).return
        · have hset : Inv setup { j with profile := some profile } past := by
            refine { h with
              loaded := fun p hp => ⟨profiles, hmem, ?_⟩
              target := fun target ht => ?_
              downloaded := fun hd => ?_
              complete := fun o ho => ?_ }
            · rw [← Option.some.inj hp]
              exact List.mem_of_find?_eq_some hfind
            · have ht' : j.pc = .prefetch target := ht
              rw [hpc] at ht'
              cases ht'
            · have hd' : j.downloadComplete = true := hd
              rw [hmore] at hd'
              cases hd'
            · have ho' : o ∈ j.outcomes := ho
              rw [h.unsettled hcurrent] at ho'
              cases ho'
          cases htarget : startupRanges profile j.setup.diskSize with
          | none => exact hset.fail hmore _ _
          | some target =>
            rw [h.fixed] at htarget
            exact hset.aim hmore rfl htarget
    · exact h.return

/-- **The end of `prefetch`.** -/
theorem Inv.fetched (h : Inv setup j past) {target : Target} (hpc : j.pc = .prefetch target)
    (result : Result (Option ℚ × Option ℚ)) (hmem : Event.prefetched result ∈ past) :
    Inv setup (j.prefetched target result) past := by
  have hmore : j.downloadComplete = false := h.waiting (by rw [hpc]; intro heq; cases heq)
  unfold Job.prefetched
  cases result with
  | error code => exact h.fail hmore _ code
  | ok numbers =>
    obtain ⟨completed, total⟩ := numbers
    dsimp only
    split
    next hcurrent =>
      split
      · exact h.fail hmore _ _
      next hequal =>
        rw [not_or, not_not, not_not] at hequal
        obtain ⟨rfl, rfl⟩ := hequal
        have haimed := h.target target hpc
        have hset : Inv setup
            { j with profileCompleted := target.2, downloadComplete := true }.return past := by
          refine { h with
            target := fun t ht => ?_
            downloaded := fun _ => ⟨rfl, target, haimed, hmem⟩
            complete := fun o ho => ?_ }
          · cases ht
          · have ho' : o ∈ j.outcomes := ho
            rw [h.unsettled hcurrent] at ho'
            cases ho'
        rw [return_complete, return_emit]
        exact hset.emit.finishComplete
    · exact h.return

/-- So does their validation. -/
theorem Inv.validate (h : Inv setup j past) (origin : Option Tree)
    (hmem : Event.validate origin ∈ past) : Inv setup (j.validate origin) past := by
  unfold Job.validate
  split
  next hcurrent =>
    have hset : Inv setup { j with origin } past := by
      refine { h with origin := fun o ho => ?_, complete := fun o ho => ?_ }
      · have ho' : origin = some o := ho
        rwa [ho'] at hmem
      · have ho' : o ∈ j.outcomes := ho
        rw [h.unsettled hcurrent] at ho'
        cases ho'
    dsimp only
    split
    · exact hset.fallback _
    · exact hset.finishComplete
  · exact h

/-- The timer is set once. -/
theorem Inv.commit (h : Inv setup j past) : Inv setup j.commit (past ++ [.commit]) := by
  unfold Job.commit
  split
  next hlate => exact h.mono _ fun _ => hlate
  next hfirst =>
    rw [not_or, Bool.not_eq_true, Bool.not_eq_true] at hfirst
    have hset : Inv setup { j with
        committed := true
        ticking := true
        timers := j.timers ++ [j.setup.options.postRestoreBudgetMs] } past := by
      refine { h with timers := ?_, uncommitted := fun hc => ?_ }
      · show j.timers ++ [j.setup.options.postRestoreBudgetMs] = [setup.options.postRestoreBudgetMs]
        rw [h.timers, hfirst.1, h.fixed]
        rfl
      · cases hc
    exact (hset.mono .commit fun _ => Or.inl rfl).finishComplete

/-- So does the part of a message that is about the prefetch. -/
theorem Inv.addPart (h : Inv setup j past) (m : Message) : Inv setup (j.addPart m) past := by
  unfold Job.addPart
  split
  · exact Inv.emit { h with }
  · exact h.emit

/-- So does a report of progress. -/
theorem Inv.progress (h : Inv setup j past) (m : Message) : Inv setup (j.progress m) past := by
  unfold Job.progress
  split
  · split
    next size covered hstate =>
      split
      · exact h
      next hsame =>
        have hset : Inv setup { j with
            stateTotal := some size
            stateCompleted := max j.stateCompleted covered } past := by
          refine { h with total := fun e he => ?_ }
          obtain ⟨state, total, hold, htotal, heq⟩ := h.total e he
          have hequal : j.stateTotal = some size := by
            by_contra hne
            exact hsame ⟨by rw [hold]; rfl, hne⟩
          exact ⟨state, total, hequal.symm.trans hold, htotal, heq⟩
        exact hset.addPart m
    · exact h.addPart m
  · exact h

/-- **One step.** -/
theorem inv_step (setup : Setup) (j : Job) (past : List Event) (e : Event) (j' : Job)
    (h : Inv setup j past) (hstep : step j e = some j') : Inv setup j' (past ++ [e]) := by
  have hmem : e ∈ past ++ [e] := List.mem_append_right _ (List.mem_singleton_self e)
  by_cases hcommit : e = .commit
  · subst hcommit
    exact Option.some.inj hstep ▸ h.commit
  have hnow := h.mono e fun heq => absurd heq hcommit
  cases e with
  | begin =>
    simp only [step] at hstep
    split at hstep
    next hpc =>
      rw [← Option.some.inj hstep]
      have hmore := hnow.waiting (by rw [hpc]; intro heq; cases heq)
      unfold Job.begin
      split
      · exact hnow.goto hmore (by intro target heq; cases heq)
      · exact hnow.return
    · cases hstep
  | prepared result =>
    simp only [step] at hstep
    split at hstep
    next hpc => exact Option.some.inj hstep ▸ hnow.prepared hpc result
    · cases hstep
  | recovered result =>
    simp only [step] at hstep
    split at hstep
    next kind hpc => exact Option.some.inj hstep ▸ hnow.recovered hpc result
    · cases hstep
  | loaded result =>
    simp only [step] at hstep
    split at hstep
    next hpc => exact Option.some.inj hstep ▸ hnow.profiled hpc result hmem
    · cases hstep
  | prefetched result =>
    simp only [step] at hstep
    split at hstep
    next target hpc => exact Option.some.inj hstep ▸ hnow.fetched hpc result hmem
    · cases hstep
  | validate origin => exact Option.some.inj hstep ▸ hnow.validate origin hmem
  | commit => exact absurd rfl hcommit
  | cancel reason => exact Option.some.inj hstep ▸ hnow.fallback _
  | abort code =>
    simp only [step] at hstep
    rw [← Option.some.inj hstep]
    split
    · exact hnow.fallback _
    · exact hnow
  | expire =>
    simp only [step] at hstep
    split at hstep
    · exact Option.some.inj hstep ▸ hnow.fallback _
    · cases hstep
  | progress m => exact Option.some.inj hstep ▸ hnow.progress m

end Operations

/-! ## §4. After settling. -/

section Settled

variable {j : Job}

/-- A settled job is not current. -/
theorem not_current (h : j.settled = true) : ¬j.current := fun hcurrent => by
  have hfalse := hcurrent.1
  rw [h] at hfalse
  cases hfalse

/-- It does not end again. -/
theorem finish_settled (h : j.settled = true) (outcome : Ending) (reason : Option String) :
    j.finish outcome reason = j := if_pos h

/-- A failure only lets it return. -/
theorem fail_settled (h : j.settled = true) (stage : Kind) (code : Option String) :
    j.fail stage code = j.return := if_neg (not_current h)

/-- **A job that has settled** returns from its `await`, and does nothing. -/
theorem settled_step (h : j.settled = true) {e : Event} {k : Job} (hstep : step j e = some k) :
    k = j ∨ k = j.return := by
  have hno := not_current h
  cases e with
  | begin =>
    simp only [step] at hstep
    split at hstep
    · rw [← Option.some.inj hstep]
      -- Every handler asks first whether the job is current.
      exact Or.inr (if_neg hno)
    · cases hstep
  | prepared result =>
    simp only [step] at hstep
    split at hstep
    · rw [← Option.some.inj hstep]
      refine Or.inr ?_
      cases result with
      | error code =>
        show (j.finish .fallback _).return = j.return
        rw [finish_settled h]
      | ok _ => exact if_neg hno
    · cases hstep
  | recovered result =>
    simp only [step] at hstep
    split at hstep
    · rw [← Option.some.inj hstep]
      refine Or.inr ?_
      cases result with
      | error code => exact fail_settled h _ _
      | ok _ => exact if_neg hno
    · cases hstep
  | loaded result =>
    simp only [step] at hstep
    split at hstep
    · rw [← Option.some.inj hstep]
      refine Or.inr ?_
      cases result with
      | error code => exact fail_settled h _ _
      | ok _ => exact if_neg hno
    · cases hstep
  | prefetched result =>
    simp only [step] at hstep
    split at hstep
    · rw [← Option.some.inj hstep]
      refine Or.inr ?_
      cases result with
      | error code => exact fail_settled h _ _
      | ok _ => exact if_neg hno
    · cases hstep
  | validate origin =>
    rw [← Option.some.inj hstep]
    exact Or.inl (if_neg hno)
  | commit =>
    rw [← Option.some.inj hstep]
    exact Or.inl (if_pos (Or.inr h))
  | cancel reason =>
    rw [← Option.some.inj hstep]
    exact Or.inl (finish_settled h _ _)
  | abort code =>
    simp only [step] at hstep
    rw [← Option.some.inj hstep]
    refine Or.inl ?_
    split
    · exact finish_settled h _ _
    · rfl
  | expire =>
    simp only [step] at hstep
    split at hstep
    · rw [← Option.some.inj hstep]
      exact Or.inl (finish_settled h _ _)
    · cases hstep
  | progress m =>
    rw [← Option.some.inj hstep]
    exact Or.inl (if_neg hno)

/-- And so for as long as it is kept. -/
theorem settled_run (h : j.settled = true) (events : List Event) {k : Job}
    (hrun : run step j events = some k) : k = j ∨ k = j.return := by
  refine run_keeps (I := fun i => i = j ∨ i = j.return) ?_ events j k (Or.inl rfl) hrun
  intro i e i' hi hstep
  rcases hi with hi | hi
  · subst hi
    exact settled_step h hstep
  · have hreturn : i.settled = true := by rw [hi]; exact h
    subst hi
    rcases settled_step hreturn hstep with hi | hi
    · exact Or.inr hi
    · exact Or.inr hi

end Settled

/-! ## §5. The timer. -/

@[simp] theorem return_timers (j : Job) : j.return.timers = j.timers := rfl

@[simp] theorem finish_timers (j : Job) (outcome : Ending) (reason : Option String) :
    (j.finish outcome reason).timers = j.timers := by
  unfold Job.finish
  split <;> rfl

@[simp] theorem complete_timers (j : Job) : j.complete.timers = j.timers := by
  unfold Job.complete
  split <;> simp

@[simp] theorem emit_timers (j : Job) : j.emit.timers = j.timers := by
  obtain ⟨last, progressed, heq⟩ := emit_keeps j
  rw [heq]

@[simp] theorem load_timers (j : Job) : j.load.timers = j.timers := by
  unfold Job.load
  split <;> rfl

@[simp] theorem attempt_timers (j : Job) (failedKind : Option Kind) :
    (j.attempt failedKind).timers = j.timers := by
  unfold Job.attempt
  split
  · cases failedKind <;> simp
  · rfl

@[simp] theorem fail_timers (j : Job) (stage : Kind) (code : Option String) :
    (j.fail stage code).timers = j.timers := by
  unfold Job.fail
  split
  · dsimp only
    split <;> simp
  · rfl

@[simp] theorem aim_timers (j : Job) (target : Target) : (j.aim target).timers = j.timers := by
  unfold Job.aim
  split <;> simp

/-- The profiles arm no timer. -/
theorem loaded_timers (j : Job) (result : Result (List Tree)) :
    (j.loaded result).timers = j.timers := by
  unfold Job.loaded
  split
  · simp
  · split
    · split
      · simp
      · split
        · simp
        · dsimp only
          split <;> simp
    · rfl

/-- Nor does the preparation. -/
theorem prepared_timers (j : Job) (result : Result Unit) : (j.prepared result).timers = j.timers := by
  unfold Job.prepared
  split
  · simp
  · split
    · split <;> simp
    · rfl

/-- Nor does a target that was fetched. -/
theorem prefetched_timers (j : Job) (target : Target) (result : Result (Option ℚ × Option ℚ)) :
    (j.prefetched target result).timers = j.timers := by
  unfold Job.prefetched
  split
  · simp
  · split
    · split <;> simp
    · rfl

/-- Nor does the validation. -/
theorem validate_timers (j : Job) (origin : Option Tree) : (j.validate origin).timers = j.timers := by
  unfold Job.validate
  split
  · dsimp only
    split <;> simp
  · rfl

/-- Nor does the part of a message that is about the prefetch. -/
theorem addPart_timers (j : Job) (m : Message) : (j.addPart m).timers = j.timers := by
  unfold Job.addPart
  split <;> simp

/-- Nor does progress. -/
theorem progress_timers (j : Job) (m : Message) : (j.progress m).timers = j.timers := by
  unfold Job.progress
  split
  · split
    · split
      · rfl
      · exact addPart_timers _ _
    · exact addPart_timers _ _
  · rfl

/-- No other event sets the timer. -/
theorem step_timers {j k : Job} {e : Event} (he : e ≠ .commit) (hstep : step j e = some k) :
    k.timers = j.timers := by
  cases e with
  | begin =>
    simp only [step] at hstep
    split at hstep
    · rw [← Option.some.inj hstep]
      unfold Job.begin
      split <;> rfl
    · cases hstep
  | prepared result =>
    simp only [step] at hstep
    split at hstep
    · exact Option.some.inj hstep ▸ prepared_timers j result
    · cases hstep
  | recovered result =>
    simp only [step] at hstep
    split at hstep
    · rw [← Option.some.inj hstep]
      cases result with
      | error code => exact fail_timers _ _ _
      | ok _ => exact load_timers _
    · cases hstep
  | loaded result =>
    simp only [step] at hstep
    split at hstep
    · exact Option.some.inj hstep ▸ loaded_timers j result
    · cases hstep
  | prefetched result =>
    simp only [step] at hstep
    split at hstep
    · exact Option.some.inj hstep ▸ prefetched_timers j _ result
    · cases hstep
  | validate origin => exact Option.some.inj hstep ▸ validate_timers j origin
  | commit => exact absurd rfl he
  | cancel reason => exact Option.some.inj hstep ▸ finish_timers j _ _
  | abort code =>
    simp only [step] at hstep
    rw [← Option.some.inj hstep]
    split
    · exact finish_timers j _ _
    · rfl
  | expire =>
    simp only [step] at hstep
    split at hstep
    · exact Option.some.inj hstep ▸ finish_timers j _ _
    · cases hstep
  | progress m => exact Option.some.inj hstep ▸ progress_timers j m

/-- **The timer is set at the first `commit`** of a job that has not settled, and at no other time. -/
theorem Inv.timer {setup : Setup} {j k : Job} {past : List Event} (h : Inv setup j past) {e : Event}
    (hstep : step j e = some k) :
    k.timers = j.timers ∨ e = .commit ∧ Event.commit ∉ past ∧ j.settled = false ∧
      k.timers = [setup.options.postRestoreBudgetMs] := by
  by_cases he : e = .commit
  · subst he
    rw [← Option.some.inj hstep]
    by_cases hlate : j.committed = true ∨ j.settled = true
    · exact Or.inl (congrArg Job.timers (if_pos hlate))
    · have hfirst := hlate
      rw [not_or, Bool.not_eq_true, Bool.not_eq_true] at hfirst
      refine Or.inr ⟨rfl, h.uncommitted hfirst.1 hfirst.2, hfirst.2, ?_⟩
      unfold Job.commit
      rw [if_neg hlate, complete_timers, h.timers, hfirst.1, h.fixed]
      rfl
  · exact Or.inl (step_timers he hstep)

/-! ## §6. Every run. -/

/-- A job that is constructed keeps the invariant, aborted or not. -/
theorem inv_construct (setup : Setup) (aborted : Option (Option String)) :
    Inv setup (construct setup aborted) [] := by
  cases aborted with
  | none => exact inv_new setup
  | some code => exact (inv_new setup).fallback _

/-- **Every run keeps the invariant**, with its events as the past. -/
theorem inv_run {setup : Setup} {aborted : Option (Option String)} {events : List Event} {j : Job}
    (hrun : run step (construct setup aborted) events = some j) : Inv setup j events :=
  run_history (inv_construct setup aborted) (inv_step setup) events j hrun

/-- **Every run of a startup prefetch**: it settles once, and tells so once; it is `complete` only
with its target downloaded and of the origin that was validated; the attempts, the events of progress
and the timer are as they should be; and once settled it does nothing more. -/
theorem job_runs (setup : Setup) (aborted : Option (Option String)) (events : List Event) (j : Job)
    (hrun : run step (construct setup aborted) events = some j) :
    (j.outcomes = [] ∧ j.settled = false ∨ ∃ o, j.outcomes = [o] ∧ j.settled = true) ∧
    (∀ o ∈ j.outcomes, o.outcome = .complete →
      ∃ profile profiles target id origin, Event.loaded (.ok profiles) ∈ events ∧ profile ∈ profiles ∧
        startupRanges profile setup.diskSize = some target ∧
        Call.prefetch id target.1 setup.options.windowPieces ∈ j.calls ∧
        Event.prefetched (.ok (some (target.2 : ℚ), some (target.2 : ℚ))) ∈ events ∧
        Event.validate (some origin) ∈ events ∧
        sameOrigin (prop profile "origin") (some origin) = true) ∧
    j.attempts ≤ setup.options.maxAttempts ∧
    ((∃ total, ∀ e ∈ j.progressed, e.2 = total ∧ e.1 ≤ total) ∧
      (j.progressed.map Prod.fst).Pairwise (· ≤ ·)) ∧
    (j.timers.length ≤ 1 ∧
      j.timers = (if j.committed then [setup.options.postRestoreBudgetMs] else []) ∧
      ∀ e k, step j e = some k → k.timers = j.timers ∨
        e = .commit ∧ Event.commit ∉ events ∧ k.timers = [setup.options.postRestoreBudgetMs]) ∧
    (∀ o ∈ j.outcomes, o.outcome = .fallback → j.aborted = true) ∧
    (j.settled = true → ∀ later k, run step j later = some k →
      k.outcomes = j.outcomes ∧ k.progressed = j.progressed ∧ k.calls = j.calls ∧
        k.timers = j.timers ∧ k.aborted = j.aborted) := by
  have h := inv_run hrun
  refine ⟨?_, fun o ho hend => ?_, h.attempts, ⟨?_, h.growing⟩,
    ⟨?_, h.timers, fun e k hstep => ?_⟩, fun o ho hend => ?_, fun hs later k hlater => ?_⟩
  · cases hs : j.settled with
    | false => exact Or.inl ⟨(h.running hs).1, rfl⟩
    | true =>
      obtain ⟨o, ho, -⟩ := h.once hs
      exact Or.inr ⟨o, ho, rfl⟩
  · obtain ⟨hdown, htruthy, hsame⟩ := h.complete o ho hend
    obtain ⟨-, target, ⟨profile, id, hprofile, htarget, hcall⟩, hfetched⟩ := h.downloaded hdown
    obtain ⟨profiles, hloaded, hmem⟩ := h.loaded profile hprofile
    cases horigin : j.origin with
    | none =>
      rw [horigin] at htruthy
      cases htruthy
    | some origin =>
      rw [horigin, hprofile] at hsame
      exact ⟨profile, profiles, target, id, origin, hloaded, hmem, htarget, hcall, hfetched,
        h.origin origin horigin, hsame⟩
  · cases hp : j.progressed with
    | nil => exact ⟨0, by intro e he; cases he⟩
    | cons first rest =>
      have hfirst : first ∈ j.progressed := by rw [hp]; exact List.mem_cons_self
      obtain ⟨state, profile, hstate, hprofile, -⟩ := h.total first hfirst
      refine ⟨plus state profile, fun e he => ?_⟩
      have he' : e ∈ j.progressed := by rw [hp]; exact he
      obtain ⟨state', profile', hstate', hprofile', heq⟩ := h.total e he'
      have htotal : e.2 = plus state profile := by
        rw [heq, Option.some.inj (hstate.symm.trans hstate'),
          Option.some.inj (hprofile.symm.trans hprofile')]
      exact ⟨htotal, htotal ▸ (h.bounded e he').1⟩
  · rw [h.timers]
    split
    · exact le_rfl
    · exact Nat.zero_le 1
  · rcases h.timer hstep with hsame | ⟨he, hfirst, -, htimers⟩
    · exact Or.inl hsame
    · exact Or.inr ⟨he, hfirst, htimers⟩
  · cases hs : j.settled with
    | false =>
      rw [(h.running hs).1] at ho
      cases ho
    | true =>
      obtain ⟨o', ho', hfallback⟩ := h.once hs
      rw [ho'] at ho
      rw [List.mem_singleton.mp ho] at hend
      exact hfallback hend
  · rcases settled_run hs later hlater with rfl | rfl
    · exact ⟨rfl, rfl, rfl, rfl, rfl⟩
    · exact ⟨rfl, rfl, rfl, rfl, rfl⟩

def demoOrigin : Tree := .obj [(units "kind", .str fromState), (units "sha256", .str (units "5a"))]

def demoProfile : Tree :=
  .obj [(units "origin", demoOrigin), (units "ranges", .arr [.arr [.num (units "0"), .num (units "1")]])]

def demoSetup : Setup where
  id := "1"
  options := { maxAttempts := 3, postRestoreBudgetMs := 10000, windowPieces := 8 }
  logicalSize := 131072
  diskSize := 131394
  stateHash := some (.str (units "5a"))
  profileHash := some "70"

/-- The state is restored before the profile is loaded. -/
def demoEvents : List Event :=
  [.begin, .validate (some demoOrigin), .prepared (.ok ()), .loaded (.ok [demoProfile]), .commit,
    .prefetched (.ok (some 131394, some 131394))]

/-- A job that is committed and fetches all: one outcome, and its timer. -/
theorem demo_job_runs : ∃ j, run step (construct demoSetup none) demoEvents = some j ∧
    j.outcomes = [{ outcome := .complete, attempts := 1, reason := none }] ∧
    j.timers = (if j.committed then [10000] else []) := by
  have hrun : (run step (construct demoSetup none) demoEvents).map Job.outcomes =
      some [{ outcome := .complete, attempts := 1, reason := none }] := by decide +kernel
  obtain ⟨j, hj, hout⟩ := Option.map_eq_some_iff.mp hrun
  exact ⟨j, hj, hout, (job_runs demoSetup none demoEvents j hj).2.2.2.2.1.2.1⟩

end My98.Web.StartupPrefetch
