/-
  My98.Web.StateErasure — `decodeState` settles once, and leaves nothing behind when it fails.

  What `finally` fills with zeros stays that way: a pull that is still under way touches the records
  only, and nobody else reads for a function that has ended.

    • `Store.Erased`, `Pc.bare` — where nothing of the state may be left;
    • `Owners.spares`           — readers of a function that has ended;
    • `bare_step`               — the invariant;
    • `settled_final`           — **every run, and whatever follows it**.
-/
import Mathlib
import My98.Web.StateDecoder

namespace My98.Web.StateFormat

open My98.Lib

/-! ## §1. What is left alone. -/

/-- There is nothing in the arrays `state` and `overlay`. -/
def Store.Erased (store : Store) : Prop := (∀ b ∈ store .state, b = 0) ∧ ∀ b ∈ store .overlay, b = 0

/-- Nothing has been read, or nothing is returned. -/
def Pc.bare : Pc → Bool
  | .entry => true
  | .fetching => true
  | .settled (.error _) => true
  | _ => false

/-- In `try`, or in `finally`. -/
def Pc.inside : Pc → Bool
  | .entry => false
  | .fetching => false
  | .settled _ => false
  | _ => true

/-- While the decoder is inside, nothing is asked of its arrays. -/
theorem Pc.not_bare {pc : Pc} (h : pc.inside = true) : pc.bare ≠ true := by
  cases pc with
  | entry => cases h
  | fetching => cases h
  | settled result => cases h
  | _ => exact Bool.false_ne_true

/-- Outside of the decoder no section has been begun. -/
theorem Pc.rank_outside {pc : Pc} (h : pc.inside = false) : pc.rank = 0 := by
  cases pc with
  | entry => rfl
  | fetching => rfl
  | settled result => rfl
  | closing result => rfl
  | _ => cases h

/-- The function and its two arrays are as they were. -/
structure Spares (s s' : State) : Prop where
  pc : s'.pc = s.pc
  state : s'.store .state = s.store .state
  overlay : s'.store .overlay = s.store .overlay

section Steps

variable {setup : Setup} {s s' : State} {turn : Reader → Store → Bool → Option Outcome} {throws : Nat → Bool}

/-- What spares the arrays leaves erased ones erased. -/
theorem Spares.erased (h : Spares s s') (he : s.store.Erased) : s'.store.Erased := by
  unfold Store.Erased
  rw [h.state, h.overlay]
  exact he

/-- A pull that fails spares the arrays. -/
theorem spares_failPull (s : State) : Spares s s.failPull := ⟨rfl, rfl, rfl⟩

/-- A chunk that is handed to the decompressor spares the arrays. -/
theorem spares_enqueue (s : State) (pending : Bytes) : Spares s (s.enqueue pending) := by
  unfold State.enqueue
  dsimp only
  split
  · exact spares_failPull s
  · split
    · exact ⟨rfl, rfl, rfl⟩
    · exact ⟨rfl, rfl, rfl⟩

/-- A pull that begins spares the arrays. -/
theorem spares_onPull (s : State) (throws : Nat → Bool) : Spares s (s.onPull throws) := by
  unfold State.onPull
  split
  · exact spares_failPull s
  · split
    · exact spares_enqueue s _
    · split
      · exact ⟨rfl, rfl, rfl⟩
      · split
        · exact spares_failPull s
        · exact ⟨rfl, rfl, rfl⟩

/-- A pull that goes on spares the arrays. -/
theorem spares_onPulled (s : State) (throws : Nat → Bool) : Spares s (s.onPulled throws) := by
  unfold State.onPulled
  split
  · exact spares_failPull s
  · split
    · exact spares_enqueue s _
    · exact spares_failPull s

/-- A record that was read is opened into an array of its own. -/
theorem spares_onSealed (s : State) (source : Reader) : Spares s (({ s with source } : State).onSealed setup) := by
  unfold State.onSealed
  dsimp only
  split
  · exact ⟨rfl, rfl, rfl⟩
  · split
    · exact ⟨rfl, rfl, rfl⟩
    · exact ⟨rfl, rfl, rfl⟩

/-- The end of the file spares the arrays. -/
theorem spares_onSourceEnd (s : State) (source : Reader) : Spares s ({ s with source } : State).onSourceEnd := by
  unfold State.onSourceEnd
  split
  · exact ⟨rfl, rfl, rfl⟩
  · exact ⟨rfl, rfl, rfl⟩

/-- Nobody but `pull` reads for a function that has not begun or has ended. -/
theorem Owners.spares {side : Side} (h : Owners s) (hm : Method turn) (hrank : s.pc.rank = 0)
    (hp : s.perform setup side throws turn = some s') : Spares s s' := by
  obtain ⟨job, stage, ht, hcases⟩ := perform_cases hp
  cases side with
  | raw =>
    have ht : s.raw.task = some (job, stage) := ht
    -- the output of the decompressor is read by the function only
    have hlate := h.raw (by rw [ht]; exact Option.some_ne_none _)
    omega
  | source =>
    have ht : s.source.task = some (job, stage) := ht
    have hsealed (part : Part) (pos : Nat) (hjob : job = .into part pos) : part = .sealed :=
      h.sealed (by omega) part pos stage (hjob ▸ ht)
    rcases hcases with ⟨r, store, hturn, rfl⟩ | ⟨r, hturn, rfl⟩ | ⟨r, e, hturn, rfl⟩
    · -- what is written is the record that is being read
      obtain ⟨-, hothers⟩ := hm.keeps ht hturn
      have hpart (part : Part) (hne : part ≠ .sealed) : job.part ≠ some part := by
        intro hpart
        cases hj : job with
        | finish =>
          rw [hj] at hpart
          cases hpart
        | into part' pos =>
          rw [hj] at hpart
          obtain rfl := Option.some.inj hpart
          exact hne (hsealed _ pos hj)
      exact ⟨rfl, hothers .state (hpart .state (by decide)), hothers .overlay (hpart .overlay (by decide))⟩
    · cases job with
      | into part pos =>
        obtain rfl := hsealed part pos rfl
        exact spares_onSealed s r
      | finish => exact spares_onSourceEnd s r
    · cases job with
      | into part pos =>
        obtain rfl := hsealed part pos rfl
        exact ⟨rfl, rfl, rfl⟩
      | finish => exact ⟨rfl, rfl, rfl⟩

/-! ## §2. What stays inside. -/

/-- A read that ends inside the decoder goes on inside it: it is left through its `finally` only. -/
theorem inside_returned (h : s.pc.inside = true) (side : Side) (job : Job) (throws : Nat → Bool) :
    (s.returned setup side job throws).pc.inside = true := by
  unfold State.returned
  split
  · unfold State.onHead
    dsimp only
    split_ifs <;> rfl
  · unfold State.onHeader
    dsimp only
    split <;> rfl
  · rw [(spares_onSealed s s.source).pc]
    exact h
  · rw [(spares_onSourceEnd s s.source).pc]
    exact h
  · unfold State.onMetaLength
    dsimp only
    split_ifs <;> rfl
  · unfold State.onMetadata
    split
    · rfl
    · split
      · rfl
      · split <;> rfl
  · rfl
  · rfl
  · unfold State.onEnd
    dsimp only
    split_ifs <;> rfl

/-- A turn that begins inside the decoder ends inside it. -/
theorem inside_perform {side : Side} (h : s.pc.inside = true) (hp : s.perform setup side throws turn = some s') :
    s'.pc.inside = true := by
  obtain ⟨job, stage, -, ⟨r, store, -, rfl⟩ | ⟨r, -, rfl⟩ | ⟨r, e, -, rfl⟩⟩ := perform_cases hp
  · cases side <;> exact h
  · refine inside_returned ?_ side job throws
    cases side <;> exact h
  · unfold State.thrown
    split
    · rfl
    · rfl
    · exact h
    · rfl

/-- The check of the base ends inside the decoder. -/
theorem inside_onBase (failed : Option Fail) (throws : Nat → Bool) :
    (s.onBase setup failed throws).pc.inside = true := by
  unfold State.onBase
  dsimp only
  split
  · rfl
  · split
    · rfl
    · split
      · rfl
      · split
        · rfl
        · split <;> rfl

/-! ## §3. The invariant. -/

/-- As long as nothing has been read, and when nothing is returned, there is nothing in the arrays. -/
def Bare (s : State) : Prop := s.pc.bare = true → s.store.Erased

/-- Inside the decoder there is nothing to show. -/
theorem bare_of_inside (h : s.pc.inside = true) : Bare s := fun hb => absurd hb (Pc.not_bare h)

/-- What spares the arrays, and does not move, keeps them erased. -/
theorem Bare.spares (h : Bare s) (hs : Spares s s') : Bare s' := by
  intro hb
  rw [hs.pc] at hb
  exact hs.erased (h hb)

/-- The decoder is entered with erased arrays. -/
theorem bare_accept (he : s.store.Erased) (f : File) (throws : Nat → Bool) : Bare (s.accept f throws) := by
  unfold State.accept
  dsimp only
  split
  · exact fun _ => he
  · split
    · exact fun _ => he
    · split
      · exact bare_of_inside rfl
      · exact bare_of_inside rfl

/-- `decodeState` begins with erased arrays. -/
theorem bare_enter (he : s.store.Erased) (throws : Nat → Bool) : Bare (s.enter throws) := by
  unfold State.enter
  split
  · exact fun _ => he
  · split
    · exact fun _ => he
    · exact bare_accept he _ throws
    · exact fun _ => he

/-- The answer to the request finds erased arrays. -/
theorem bare_respond (he : s.store.Erased) (response : Except Fail Response) (throws : Nat → Bool) :
    Bare (s.respond response throws) := by
  unfold State.respond
  split
  · exact fun _ => he
  · split
    · exact bare_accept he _ throws
    · exact fun _ => he

/-- `finally` erases the state and the overlay. -/
theorem erased_zero (store : Store) : ((store.zero .state).zero .overlay).Erased := by
  refine ⟨fun b hb => ?_, fun b hb => ?_⟩
  · exact List.eq_of_mem_replicate (show b ∈ List.replicate (store .state).length 0 from hb)
  · exact List.eq_of_mem_replicate (show b ∈ List.replicate (store .overlay).length 0 from hb)

/-- **One turn** of either reader. -/
theorem Bare.turns {side : Side} (h : Bare s) (howners : Owners s) (hm : Method turn)
    (hp : s.perform setup side throws turn = some s') : Bare s' := by
  cases hinside : s.pc.inside with
  | true => exact bare_of_inside (inside_perform hinside hp)
  | false => exact h.spares (howners.spares hm (Pc.rank_outside hinside) hp)

/-- **One step.** -/
theorem bare_step (hi : Inv setup s) (h : Bare s) (e : Event) (hs : step setup s e = some s') : Bare s' := by
  unfold step at hs
  cases e with
  | enter throws =>
    dsimp only at hs
    split at hs
    next hpc =>
      obtain rfl := Option.some.inj hs
      exact bare_enter (h (by rw [hpc]; rfl)) throws
    · cases hs
  | respond response throws =>
    dsimp only at hs
    split at hs
    next hpc =>
      obtain rfl := Option.some.inj hs
      exact bare_respond (h (by rw [hpc]; rfl)) response throws
    · cases hs
  | turn side throws => exact h.turns hi.owners method_turn hs
  | answer side throws => exact h.turns hi.owners method_answer hs
  | rest side throws => exact h.turns hi.owners method_rest hs
  | base failed throws =>
    dsimp only at hs
    split at hs
    · obtain rfl := Option.some.inj hs
      exact bare_of_inside (inside_onBase failed throws)
    · cases hs
  | pull throws =>
    dsimp only at hs
    split at hs
    · obtain rfl := Option.some.inj hs
      exact h.spares (spares_onPull s throws)
    · cases hs
  | pulled throws =>
    dsimp only at hs
    split at hs
    · obtain rfl := Option.some.inj hs
      exact h.spares (spares_onPulled s throws)
    · cases hs
  | abort =>
    dsimp only at hs
    obtain rfl := Option.some.inj hs
    split
    · exact h.spares ⟨rfl, rfl, rfl⟩
    · exact h.spares ⟨rfl, rfl, rfl⟩
  | closed =>
    dsimp only at hs
    split at hs
    · obtain rfl := Option.some.inj hs
      exact fun hb => absurd hb Bool.false_ne_true
    · obtain rfl := Option.some.inj hs
      exact fun _ => erased_zero s.store
    · cases hs
  | _ =>
    dsimp only at hs
    split at hs <;> cases hs <;> exact h.spares ⟨rfl, rfl, rfl⟩

/-- A result does not change any more. -/
theorem settled_step {result : Except Fail Decoded} (hi : Inv setup s) (hpc : s.pc = .settled result) (e : Event)
    (hs : step setup s e = some s') : s'.pc = .settled result := by
  have hrank : s.pc.rank = 0 := by rw [hpc]; rfl
  unfold step at hs
  cases e with
  | enter throws =>
    rw [hpc] at hs
    cases hs
  | respond response throws =>
    rw [hpc] at hs
    cases hs
  | turn side throws => exact (hi.owners.spares method_turn hrank hs).pc.trans hpc
  | answer side throws => exact (hi.owners.spares method_answer hrank hs).pc.trans hpc
  | rest side throws => exact (hi.owners.spares method_rest hrank hs).pc.trans hpc
  | base failed throws =>
    rw [hpc] at hs
    cases hs
  | pull throws =>
    dsimp only at hs
    split at hs
    · obtain rfl := Option.some.inj hs
      exact (spares_onPull s throws).pc.trans hpc
    · cases hs
  | pulled throws =>
    dsimp only at hs
    split at hs
    · obtain rfl := Option.some.inj hs
      exact (spares_onPulled s throws).pc.trans hpc
    · cases hs
  | abort =>
    dsimp only at hs
    obtain rfl := Option.some.inj hs
    split
    · exact hpc
    · exact hpc
  | closed =>
    rw [hpc] at hs
    cases hs
  | _ =>
    dsimp only at hs
    split at hs <;> cases hs <;> exact hpc

/-- **Every run.** -/
theorem bare_run {input : Input} {events : List Event}
    (hrun : run (step setup) (State.start input) events = some s) : Inv setup s ∧ Bare s := by
  have hstep : ∀ s e s', (Inv setup s ∧ Bare s) → step setup s e = some s' → Inv setup s' ∧ Bare s' :=
    fun s e s' h hs => ⟨inv_step h.1 e hs, bare_step h.1 h.2 e hs⟩
  have hnone : ∀ b ∈ ([] : Bytes), b = 0 := fun _ hb => absurd hb List.not_mem_nil
  have hstart : Bare (State.start input) := fun _ => ⟨hnone, hnone⟩
  exact run_keeps hstep events (State.start input) s ⟨inv_start input, hstart⟩ hrun

end Steps

/-- **`decodeState` settles once**: whatever happens behind it, the result stays; and where it is an
    error, nothing of the state is left in the arrays. -/
theorem settled_final {setup : Setup} {input : Input} {before after : List Event} {s s' : State}
    {result : Except Fail Decoded} (hbefore : run (step setup) (State.start input) before = some s)
    (hsettled : s.pc = .settled result) (hafter : run (step setup) s after = some s') :
    s'.pc = .settled result ∧ ∀ e, result = .error e → s'.store.Erased := by
  have hstep : ∀ s e s', (Inv setup s ∧ Bare s ∧ s.pc = .settled result) → step setup s e = some s' →
      Inv setup s' ∧ Bare s' ∧ s'.pc = .settled result :=
    fun s e s' h hs => ⟨inv_step h.1 e hs, bare_step h.1 h.2.1 e hs, settled_step h.1 h.2.2 e hs⟩
  obtain ⟨hinv, hbare⟩ := bare_run hbefore
  obtain ⟨-, hbare', hpc⟩ := run_keeps hstep after s s' ⟨hinv, hbare, hsettled⟩ hafter
  refine ⟨hpc, fun e he => hbare' ?_⟩
  rw [hpc, he]
  rfl

/-- The function is aborted while it reads the state. -/
def demoAborted : List Event := demoEvents.take 21 ++ [.abort, .turn .raw quiet, .turn .raw quiet, .closed]

def demoStopped : State := (run (step demoSetup) (State.start (.file demoFile)) demoAborted).getD (State.start .other)

def demoAfter : State := (run (step demoSetup) demoStopped [.cancel, .abort]).getD (State.start .other)

def Pc.refuses : Pc → Bool
  | .settled (.error _) => true
  | _ => false

/-- The state is aborted while it is read: the array is erased, whatever comes later. -/
theorem demo_settled_final : ∃ e : Fail, demoStopped.pc = .settled (.error e) ∧ demoAfter.pc = .settled (.error e) ∧
    demoAfter.store.Erased ∧ demoAfter.store .state = [0] := by
  have hrefuses : demoStopped.pc.refuses = true := by decide +kernel
  have hstate : demoAfter.store .state = [0] := by decide +kernel
  have hbefore : run (step demoSetup) (State.start (.file demoFile)) demoAborted = some demoStopped :=
    eq_some_of_test rfl (fun s => s.pc.refuses) rfl hrefuses
  have hafter : run (step demoSetup) demoStopped [.cancel, .abort] = some demoAfter :=
    eq_some_of_test rfl (fun s => decide (s.store .state = [0])) rfl (decide_eq_true hstate)
  cases hpc : demoStopped.pc with
  | settled result =>
    cases result with
    | ok d =>
      rw [hpc] at hrefuses
      cases hrefuses
    | error e =>
      obtain ⟨hkept, herased⟩ := settled_final hbefore hpc hafter
      exact ⟨e, rfl, hkept, herased e rfl, hstate⟩
  | _ =>
    rw [hpc] at hrefuses
    cases hrefuses

end My98.Web.StateFormat
