/-
  My98.Web.StartupWindow — startup jobs that share one torrent
  (`prefetchStartup` and `verifyCachedPieces` of `src/disk/web/torrent-window.js`).

  A job checks which of its pieces are in the cache, and then has the others fetched, a few at a time:
  it puts a SELECTION of one piece in the torrent's list, with a function of its own as the `notify` of
  it, and takes it out again when the piece is verified.  The list is shared with the other jobs and the
  readers of the torrent.

  `_select`, `_updateSelections` and `_markVerified` may raise `verified` at once, and so have `pump`
  called while it runs.  So here `pump` goes in steps, from one such call to the next, and anything may
  happen between two of its steps; the only thing that waits for its end is what comes after an `await`.
  WebTorrent may take any selection out of the list at any time.  `_select` throws when the torrent is
  destroyed, and may throw at other times.

    • `step`        — the jobs and the torrent, and what may happen to them;
    • `snapshot_eq` — `completed===total` when every piece is verified, and only then;
    • `targets_of_startupTargets` — what an accepted list of ranges gives.
-/
import Mathlib
import My98.Lib.Machine
import My98.Web.StartupTargets

namespace My98.Web.StartupWindow

open My98.Lib My98.Web.LoadProfiles My98.Web.Startup

/-! ## §1. The code. -/

/-- `selection.notify`. -/
inductive Notify where
  /-- `owner`, a function that one job made. -/
  | owner (n : Nat)
  | other (n : Nat)
  deriving DecidableEq

structure Selection where
  notify : Notify
  first : ℤ
  last : ℤ
  stream : Bool
  deriving DecidableEq

/-- `entry.torrent`, with `entry.error`, and `entry.cacheChecks` by their pieces. -/
structure Torrent where
  size : Nat
  bitfield : ℤ → Bool
  selections : List Selection
  destroyed : Bool
  /-- `this.entries.get(entry.infoHash)!==entry`. -/
  replaced : Bool
  error : Bool
  cacheChecks : List ℤ
  /-- How many functions the jobs have made. -/
  owners : Nat

abbrev Outcome := Except String (ℤ × ℤ)

/-- One of the functions that `verifyCachedPieces` runs. -/
inductive Worker where
  | turn
  /-- `await waitFor(check,signal)`. -/
  | awaits (index : ℤ)
  | resolved (index : ℤ) (result : Except String Bool)
  | returned
  deriving DecidableEq

inductive Pc where
  /-- `await this.verifyCachedPieces(…)`. -/
  | checking
  /-- `pump` does not run. -/
  | waiting
  /-- `do {` -/
  | top
  /-- `for(const index of [...owned.keys()])` -/
  | releasing (left : List ℤ)
  /-- `while(owned.size<windowPieces && …)` -/
  | filling
  /-- The loop of `finally`. -/
  | closing (left : List ℤ)
  | settled
  deriving DecidableEq

structure Job where
  ranges : List (ℚ × ℚ)
  windowPieces : ℤ
  indices : List ℤ
  /-- `controller.signal.aborted`, with the code of its reason. -/
  aborted : Option String
  cursor : Nat
  workers : List Worker
  pc : Pc
  next : Nat
  again : Bool
  /-- What the promise of `pump` is settled with, or what was thrown before it. -/
  outcome : Option Outcome
  owned : List (ℤ × Nat)
  lastCompleted : ℤ
  /-- What it has given to `onProgress`. -/
  progressed : List (ℤ × ℤ)
  /-- The calls of `_select` that it has made. -/
  selected : List (ℤ × Nat)

/-- `snapshot()`. -/
def snapshot (t : Torrent) (indices : List ℤ) : ℤ × ℤ :=
  ((indices.map fun i => if t.bitfield i then pieceBytes t.size i else 0).sum, targetTotal t.size indices)

def report (t : Torrent) (j : Job) : Job :=
  let value := snapshot t j.indices
  if value.1 ≠ j.lastCompleted then
    { j with lastCompleted := value.1, progressed := j.progressed ++ [value] }
  else j

def Job.finish (j : Job) (outcome : Outcome) : Job :=
  if j.outcome.isSome then j else { j with outcome := some outcome }

def Torrent.remove (t : Torrent) (n : Nat) : Torrent :=
  { t with selections := t.selections.eraseP fun s => s.notify = .owner n }

def release (t : Torrent) (j : Job) (index : ℤ) : Torrent × Job :=
  match j.owned.find? (fun p => p.1 = index) with
  | none => (t, j)
  | some owner =>
    let j := { j with owned := j.owned.filter fun p => p.1 ≠ index }
    if t.destroyed then (t, j) else (t.remove owner.2, j)

/-- `owned.set(index,owner)`, before the call of `_select`. -/
def Job.own (j : Job) (index : ℤ) (n : Nat) : Job :=
  { j with owned := j.owned ++ [(index, n)], selected := j.selected ++ [(index, n)] }

/-- The `catch` and the `finally` of `pump`. -/
def Job.stop (j : Job) (code : String) : Job := { j.finish (.error code) with pc := .waiting }

def pieceSelection (index : ℤ) (n : Nat) : Selection :=
  { notify := .owner n, first := index, last := index, stream := true }

/-- `torrent._select(index,index,0,owner,true)`, where `owner` is new. -/
def select (t : Torrent) (j : Job) (index : ℤ) (throws : Option String) : Torrent × Job :=
  let n := t.owners
  let j := j.own index n
  match (if t.destroyed then some "TRANSPORT_ERROR" else throws) with
  | some code => ({ t with owners := n + 1 }, j.stop code)
  | none => ({ t with owners := n + 1, selections := t.selections ++ [pieceSelection index n] }, j)

/-- The end of a turn of `do … while`. -/
def endTurn (t : Torrent) (j : Job) : Job :=
  let value := snapshot t j.indices
  let j := report t j
  let j := if value.1 = value.2 then report t (j.finish (.ok value)) else j
  { j with pc := if j.again = true ∧ j.outcome.isSome = false then .top else .waiting }

/-- The next step of `pump`, or of `finally`. -/
def advance (t : Torrent) (j : Job) (throws : Option String) : Option (Torrent × Job) :=
  match j.pc with
  | .top =>
    let j := { j with again := false }
    match j.aborted with
    | some code => some (t, j.stop code)
    | none => some (t, { j with pc := .releasing (j.owned.map Prod.fst) })
  | .releasing (index :: left) =>
    let j := { j with pc := .releasing left }
    some (if t.bitfield index then release t j index else (t, j))
  | .releasing [] => some (t, { j with pc := .filling })
  | .filling =>
    match j.indices[j.next]? with
    | some index =>
      if (j.owned.length : ℤ) < j.windowPieces then
        let j := { j with next := j.next + 1 }
        some (if t.bitfield index then (t, j) else select t j index throws)
      else some (t, endTurn t j)
    | none => some (t, endTurn t j)
  | .closing (index :: left) => some (release t { j with pc := .closing left } index)
  | .closing [] => some (t, { j with pc := .settled })
  | _ => none

/-- `pump` is called. -/
def Job.pump (j : Job) : Job :=
  if j.outcome.isSome then j
  else if j.pc = .waiting then { j with pc := .top }
  else { j with again := true }

/-- The promise of `pump` has been made. -/
def Job.started (j : Job) : Bool :=
  match j.pc with
  | .waiting => true
  | .top => true
  | .releasing _ => true
  | .filling => true
  | _ => false

/-- The listener of the job. -/
def Job.verified (index : ℤ) (j : Job) : Job :=
  if j.started = true ∧ index ∈ j.indices then j.pump else j

/-- The controller of the job is aborted. -/
def Job.abort (code : String) (j : Job) : Job :=
  if j.aborted.isSome = true ∨ j.pc = .settled then j
  else
    let j := { j with aborted := some code }
    if j.started then j.finish (.error code) else j

/-- `throw`, before the promise of `pump`. -/
def Job.throw (j : Job) (code : String) : Job :=
  { j.finish (.error code) with pc := .closing (j.owned.map Prod.fst) }

/-- A worker throws; only the first of them makes `Promise.all` fail. -/
def Job.fail (j : Job) (w : Nat) (code : String) : Job :=
  let j := { j with workers := j.workers.set w .returned }
  if j.pc = .checking then j.throw code else j

def Job.setWorker (j : Job) (w : Nat) (worker : Worker) : Job :=
  { j with workers := j.workers.set w worker }

/-- The next turn of a worker; the piece that it marks as verified. -/
def work (t : Torrent) (j : Job) (w : Nat) : Worker → Option (Torrent × Job × Option ℤ)
  | .turn =>
    let position := j.cursor
    let j := { j with cursor := j.cursor + 1 }
    match j.indices[position]? with
    | none => some (t, j.setWorker w .returned, none)
    | some index =>
      match j.aborted with
      | some code => some (t, j.fail w code, none)
      | none =>
        if t.bitfield index then some (t, j, none)
        else
          let t := if index ∈ t.cacheChecks then t else { t with cacheChecks := t.cacheChecks ++ [index] }
          some (t, j.setWorker w (.awaits index), none)
  | .awaits _ => j.aborted.map fun code => (t, j.fail w code, none)
  | .resolved index result =>
    match result with
    | .error code => some (t, j.fail w code, none)
    | .ok valid =>
      match j.aborted with
      | some code => some (t, j.fail w code, none)
      | none =>
        if t.replaced = true ∨ t.destroyed = true then some (t, j.fail w "CANCELLED", none)
        else
          some (t, j.setWorker w .turn,
            if valid = true ∧ t.bitfield index = false then some index else none)
  | .returned => none

/-- After `verifyCachedPieces`. -/
def Job.checked (t : Torrent) (j : Job) : Option Job :=
  if j.pc = .checking ∧ j.workers.all (· = .returned) = true then
    match j.aborted with
    | some code => some (j.throw code)
    | none => some { report t j with pc := .top }
  else none

/-- `prefetchStartup`, up to its first `await`; `none` if it is rejected before. -/
def prefetchStartup (t : Torrent) (ranges : List (ℚ × ℚ)) (windowPieces : Option ℚ)
    (aborted : Bool) : Option Job := do
  if t.error = true ∨ t.destroyed = true ∨ aborted = true then none
  let windowPieces ← safeInteger? windowPieces
  if windowPieces < 1 ∨ 32 < windowPieces then none
  let indices ← startupTargets ranges t.size
  return report t
    { ranges, windowPieces, indices, aborted := none, cursor := 0,
      workers := List.replicate (min windowPieces.toNat indices.length) .turn, pc := .checking, next := 0,
      again := false, outcome := none, owned := [], lastCompleted := -1, progressed := [], selected := [] }

structure Entry where
  torrent : Torrent
  jobs : List Job

inductive Event where
  | call (ranges : List (ℚ × ℚ)) (windowPieces : Option ℚ) (aborted : Bool)
  | worker (k w : Nat)
  | checked (k : Nat)
  | advance (k : Nat) (throws : Option String)
  /-- The promise of `pump` has settled, and `pump` has ended. -/
  | close (k : Nat)
  /-- The signal of the caller, or the timer. -/
  | abort (k : Nat) (code : String)
  /-- `_verifyPiece` has ended. -/
  | answer (index : ℤ) (result : Except String Bool)
  | verified (index : ℤ)
  /-- A scan of the cache has found no such piece. -/
  | unverified (index : ℤ)
  /-- `failed(entry,error)`. -/
  | failed (code : String)
  | replaced
  | destroyed
  /-- A selection that no startup job makes. -/
  | selects (n : Nat) (first last : ℤ) (stream : Bool)
  /-- A selection that no startup job removes. -/
  | removes (i : Nat)

/-- `_markVerified(index)`. -/
def Entry.verified (e : Entry) (index : ℤ) : Entry :=
  { torrent := { e.torrent with bitfield := Function.update e.torrent.bitfield index true }
    jobs := e.jobs.map (Job.verified index) }

def Worker.answer (index : ℤ) (result : Except String Bool) (worker : Worker) : Worker :=
  if worker = .awaits index then .resolved index result else worker

def step (e : Entry) : Event → Option Entry
  | .call ranges windowPieces aborted =>
    match prefetchStartup e.torrent ranges windowPieces aborted with
    | none => some e
    | some j => some { e with jobs := e.jobs ++ [j] }
  | .worker k w =>
    (e.jobs[k]?).bind fun j => (j.workers[w]?).bind fun worker =>
      (work e.torrent j w worker).map fun x =>
        let e : Entry := { torrent := x.1, jobs := e.jobs.set k x.2.1 }
        match x.2.2 with
        | some index => e.verified index
        | none => e
  | .checked k =>
    (e.jobs[k]?).bind fun j => (j.checked e.torrent).map fun j => { e with jobs := e.jobs.set k j }
  | .advance k throws =>
    (e.jobs[k]?).bind fun j => (advance e.torrent j throws).map fun x =>
      { torrent := x.1, jobs := e.jobs.set k x.2 }
  | .close k =>
    (e.jobs[k]?).bind fun j =>
      if j.pc = .waiting ∧ j.outcome.isSome = true then
        some { e with jobs := e.jobs.set k { j with pc := .closing (j.owned.map Prod.fst) } }
      else none
  | .abort k code => (e.jobs[k]?).map fun j => { e with jobs := e.jobs.set k (j.abort code) }
  | .answer index result =>
    if index ∈ e.torrent.cacheChecks then
      some
        { torrent := { e.torrent with cacheChecks := e.torrent.cacheChecks.erase index }
          jobs := e.jobs.map fun j => { j with workers := j.workers.map (Worker.answer index result) } }
    else none
  | .verified index => some (e.verified index)
  | .unverified index =>
    some { e with torrent := { e.torrent with bitfield := Function.update e.torrent.bitfield index false } }
  | .failed code =>
    some { torrent := { e.torrent with error := true }, jobs := e.jobs.map (Job.abort code) }
  | .replaced => some { e with torrent := { e.torrent with replaced := true } }
  | .destroyed => some { e with torrent := { e.torrent with destroyed := true, selections := [] } }
  | .selects n first last stream =>
    some { e with torrent := { e.torrent with
      selections := e.torrent.selections ++ [{ notify := .other n, first, last, stream }] } }
  | .removes i =>
    some { e with torrent := { e.torrent with selections := e.torrent.selections.eraseIdx i } }

/-- A torrent of which some pieces are there, before any job. -/
def Entry.start (size : Nat) (bitfield : ℤ → Bool) : Entry :=
  { torrent :=
      { size, bitfield, selections := [], destroyed := false, replaced := false, error := false,
        cacheChecks := [], owners := 0 }
    jobs := [] }

/-! ## §2. The targets of a job. -/

theorem pieceBytes_pos {size : Nat} {r : ℚ × ℚ} {i : ℤ} (hbound : ¬(size : ℚ) < r.1 + r.2)
    (hi : i ≤ (piecesOf r).2) : 0 < pieceBytes size i := by
  have hfloor : ((i : ℚ)) ≤ (r.1 + r.2 - 1) / PIECE := Int.le_floor.mp hi
  have hpos : (0 : ℚ) < PIECE := by unfold PIECE; norm_num
  rw [le_div_iff₀ hpos] at hfloor
  have hlt : (i : ℚ) * PIECE < size := by
    have hle := not_lt.mp hbound
    linarith
  have hlt' : i * PIECE < size := by exact_mod_cast hlt
  unfold pieceBytes
  unfold PIECE at hlt' ⊢
  omega

theorem foldlM_targets {size : Nat} : ∀ {ranges : List (ℚ × ℚ)} {targets indices : List ℤ},
    targets.Nodup → (∀ i ∈ targets, 0 < pieceBytes size i) →
    ranges.foldlM (addRange size) targets = some indices →
    indices.Nodup ∧ ∀ i ∈ indices, 0 < pieceBytes size i := by
  intro ranges
  induction ranges with
  | nil =>
    intro targets indices hnodup hpos h
    obtain rfl := Option.some.inj h
    exact ⟨hnodup, hpos⟩
  | cons r ranges ih =>
    intro targets indices hnodup hpos h
    rw [List.foldlM_cons] at h
    obtain ⟨added, hadd, hrest⟩ := Option.bind_eq_some_iff.mp h
    unfold addRange at hadd
    split at hadd
    · cases hadd
    next hvalid =>
      obtain rfl := Option.some.inj hadd
      obtain ⟨hnodup', hmem⟩ := foldl_addTarget (l := upTo (piecesOf r).1 (piecesOf r).2) hnodup
      refine ih hnodup' (fun i hi => ?_) hrest
      rcases (hmem i).mp hi with hi | hi
      · exact hpos i hi
      · rw [mem_upTo, mem_pointsOf] at hi
        exact pieceBytes_pos (fun hlt => hvalid (by tauto)) hi.2

/-- **The targets** are distinct pieces of the disk. -/
theorem targets_of_startupTargets {ranges : List (ℚ × ℚ)} {size : Nat} {indices : List ℤ}
    (h : startupTargets ranges size = some indices) :
    indices.Nodup ∧ ∀ i ∈ indices, 0 < pieceBytes size i :=
  foldlM_targets List.nodup_nil (fun i hi => by cases hi) h

theorem sum_le_total {f : ℤ → ℤ} {b : ℤ → Bool} {l : List ℤ} (hpos : ∀ i ∈ l, 0 < f i) :
    (l.map fun i => if b i then f i else 0).sum ≤ (l.map f).sum := by
  refine List.sum_le_sum fun i hi => ?_
  split
  · exact le_rfl
  · exact (hpos i hi).le

theorem sum_eq_total {f : ℤ → ℤ} {b : ℤ → Bool} {l : List ℤ} (hpos : ∀ i ∈ l, 0 < f i) :
    (l.map fun i => if b i then f i else 0).sum = (l.map f).sum ↔ ∀ i ∈ l, b i = true := by
  induction l with
  | nil => simp
  | cons i l ih =>
    have hrest : ∀ k ∈ l, 0 < f k := fun k hk => hpos k (List.mem_cons_of_mem _ hk)
    have hle := sum_le_total (b := b) hrest
    have hi := hpos i List.mem_cons_self
    rw [List.map_cons, List.map_cons, List.sum_cons, List.sum_cons, List.forall_mem_cons, ← ih hrest]
    cases hb : b i with
    | false =>
      rw [if_neg Bool.false_ne_true]
      constructor
      · intro heq
        omega
      · rintro ⟨hfalse, -⟩
        cases hfalse
    | true =>
      rw [if_pos rfl]
      constructor
      · intro heq
        exact ⟨rfl, by omega⟩
      · rintro ⟨-, heq⟩
        rw [heq]

/-- **`completed===total`** when every piece is verified, and only then. -/
theorem snapshot_eq {t : Torrent} {indices : List ℤ} (hpos : ∀ i ∈ indices, 0 < pieceBytes t.size i) :
    (snapshot t indices).1 = (snapshot t indices).2 ↔ ∀ i ∈ indices, t.bitfield i = true :=
  sum_eq_total hpos

end My98.Web.StartupWindow
