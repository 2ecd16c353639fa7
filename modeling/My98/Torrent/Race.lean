/-
  My98.Torrent.Race — two publishers of one identity.

  Both have prepared a candidate over the same base, each in its own root, and both run
  `transfer` and `commit`.  The DHT is ONE REGISTER per salt: a put keeps the newer or
  conflicting value it finds, a lookup returns the register.  `commit` checks the base, then
  puts, then reads back; there is no compare-and-swap, so the other publisher may put between
  any two of these steps.

    • `at_most_one_complete` — in every run in which no publication put replaces a candidate
      that the other publisher has already read back, at most one journal is ever complete;
    • `lost_update`          — the run in which both publishers complete.
-/
import Mathlib.Algebra.Order.Ring.Nat
import Mathlib.Tactic.Common
import My98.Torrent.Resume

namespace My98.Torrent

open My98.Lib

/-! ## §1. A register and two roots. -/

inductive Side where
  | left
  | right
  deriving DecidableEq, Repr

def Side.other : Side → Side
  | .left => .right
  | .right => .left

/-- The other side is another one. -/
theorem Side.other_ne (side : Side) : side.other ≠ side := by
  cases side <;> decide

/-- There are two sides. -/
theorem Side.eq_other {side side' : Side} (h : side' ≠ side) : side' = side.other := by
  cases side <;> cases side' <;> first | rfl | exact absurd rfl h

/-- The DHT entries of the identity, the two roots, and for each side whether the read-back of
    its running commit has returned its candidate, and whether its journal was ever complete. -/
structure Shared where
  names : Option Record
  hints : Option Locations
  root : Side → Root
  confirmed : Side → Bool
  won : Side → Bool

/-- An answer of the environment, or a put that was applied although its call fails. -/
inductive RaceInput where
  | plain (answer : Answer)
  | applied (e : Failure)

/-- What `put_signed` does to a register: the value it keeps, and what the caller is told. -/
def register {α : Type} [Signed α] (found : Option α) (new : α) : Option α × PutAnswer α :=
  match found with
  | some f => if Supersedes f new then (some f, .superseded f) else (some new, .stored)
  | none => (some new, .stored)

/-- The DHT's part of an operation: the answer, and the registers after it. -/
def Shared.reply (s : Shared) :
    Op → RaceInput → Option (Answer × Option Record × Option Locations)
  | .gather, .plain (.records (.ok more)) =>
    some (.records (.ok (s.names.toList ++ more)), s.names, s.hints)
  | .resolve, .plain (.record (.ok _)) => some (.record (.ok s.names), s.names, s.hints)
  | .resolveLocations, .plain (.locations (.ok _)) =>
    some (.locations (.ok s.hints), s.names, s.hints)
  | .put record, .plain (.put .stored) =>
    some (.put (register s.names record).2, (register s.names record).1, s.hints)
  | .put record, .applied e => some (.put (.failed e), (register s.names record).1, s.hints)
  | .put _, .plain (.put (.superseded _)) => none
  | .putLocations l, .plain (.putLocations .stored) =>
    some (.putLocations (register s.hints l).2, s.names, (register s.hints l).1)
  | .putLocations l, .applied e =>
    some (.putLocations (.failed e), s.names, (register s.hints l).1)
  | .putLocations _, .plain (.putLocations (.superseded _)) => none
  | _, .plain answer => some (answer, s.names, s.hints)
  | _, .applied _ => none

/-- Does this answer return the candidate of the side? -/
def Shared.confirms (s : Shared) (side : Side) : Op → Answer → Bool
  | .resolve, .record (.ok found) => decide (∃ j ∈ (s.root side).journal, found = some j.record)
  | _, _ => false

/-- Does the operation complete the journal? -/
def Op.completes : Op → Bool
  | .save j => decide (j.phase = .complete)
  | _ => false

/-- One operation of one side. -/
def Shared.handle (config : Side → Config) (side : Side) (op : Op) (input : RaceInput)
    (s : Shared) : Option (Shared × op.Ret) :=
  match s.reply op input with
  | none => none
  | some (answer, names, hints) =>
    (Root.handle (config side) op answer (s.root side)).map fun out =>
      ({ names := names
         hints := hints
         root := Function.update s.root side out.1
         confirmed := Function.update s.confirmed side
           (s.confirmed side || s.confirms side op answer)
         won := Function.update s.won side (s.won side || op.completes) }, out.2)

/-- What one operation of one side did: its own root moved, and the publication register is as
    it was or holds the record that was put over nothing superseding it. -/
structure Stepped (config : Side → Config) (side : Side) (op : Op) (s s' : Shared)
    (answer : Answer) (r : op.Ret) : Prop where
  root : ∃ root', Root.handle (config side) op answer (s.root side) = some (root', r) ∧
    s'.root = Function.update s.root side root'
  names : s'.names = s.names ∨ ∃ record, op = .put record ∧
    s'.names = (register s.names record).1
  confirmed : s'.confirmed = Function.update s.confirmed side
    (s.confirmed side || s.confirms side op answer)
  won : s'.won = Function.update s.won side (s.won side || op.completes)
  /-- A read-back returns the register. -/
  readback : ∀ found, op = .resolve → answer = .record (.ok found) → found = s.names

/-- What an answer does to the two registers. -/
theorem reply_spec {s : Shared} {op : Op} {input : RaceInput} {answer : Answer}
    {names : Option Record} {hints : Option Locations}
    (h : s.reply op input = some (answer, names, hints)) :
    (names = s.names ∨ ∃ record, op = .put record ∧ names = (register s.names record).1) ∧
      ∀ found, op = .resolve → answer = .record (.ok found) → found = s.names := by
  have same : ∀ {a b : Answer} {n : Option Record} {l l' : Option Locations},
      (some (a, n, l) : Option (Answer × Option Record × Option Locations)) = some (b, names, l') →
        n = names := by
    intro a b n l l' hout
    exact (Prod.mk.inj (Prod.mk.inj (Option.some.inj hout)).2).1
  unfold Shared.reply at h
  split at h
  case h_2 =>
    refine ⟨.inl (same h).symm, ?_⟩
    intro found _ hanswer
    obtain ⟨rfl, -⟩ := Prod.mk.inj (Option.some.inj h)
    exact (Except.ok.inj (Answer.record.inj hanswer)).symm
  case h_4 record =>
    exact ⟨.inr ⟨record, rfl, (same h).symm⟩, fun _ hop => by cases hop⟩
  case h_5 record _ =>
    exact ⟨.inr ⟨record, rfl, (same h).symm⟩, fun _ hop => by cases hop⟩
  case h_10 answer' _ hresolve _ _ _ _ _ =>
    refine ⟨.inl (same h).symm, ?_⟩
    intro found hop hanswer
    obtain ⟨rfl, -⟩ := Prod.mk.inj (Option.some.inj h)
    exact (hresolve found hop hanswer).elim
  all_goals first
    | exact ⟨.inl (same h).symm, fun _ hop => by cases hop⟩
    | cases h

/-- Every operation is a step of its side. -/
theorem handle_stepped {config : Side → Config} {side : Side} {op : Op} {input : RaceInput}
    {s s' : Shared} {r : op.Ret} (h : s.handle config side op input = some (s', r)) :
    ∃ answer, Stepped config side op s s' answer r := by
  unfold Shared.handle at h
  cases hreply : s.reply op input with
  | none =>
    rw [hreply] at h
    cases h
  | some reply =>
    obtain ⟨answer, names, hints⟩ := reply
    rw [hreply] at h
    obtain ⟨⟨root', r'⟩, hroot, hout⟩ := Option.map_eq_some_iff.mp h
    obtain ⟨rfl, rfl⟩ := Prod.mk.inj hout
    obtain ⟨hnames, hread⟩ := reply_spec hreply
    exact ⟨answer, ⟨root', hroot, rfl⟩, hnames, rfl, rfl, hread⟩

/-! ## §2. The invariant. -/

/-- The side's journal was complete, or is about to be: its candidate has been read back. -/
def Shared.settled (s : Shared) (side : Side) : Bool := s.confirmed side || s.won side

/-- Each side still works on its own candidate, and a candidate that was read back or whose
    journal was ever complete is what the DHT holds. -/
structure Shared.Inv (candidate : Side → Record) (s : Shared) : Prop where
  journal : ∀ side, ∃ j, (s.root side).journal = some j ∧ j.record = candidate side
  settled : ∀ side, s.settled side = true → s.names = some (candidate side)
  won : ∀ side j, (s.root side).journal = some j → j.phase = .complete → s.won side = true

/-- **What the two publishers would need**: a publication put that follows the other side's
    read-back finds a record that supersedes its own. -/
def Orderly (candidate : Side → Record) (side : Side) (op : Op) (s : Shared) : Bool :=
  match op with
  | .put record => s.settled side.other → Supersedes (candidate side.other) record
  | _ => true

/-- What a call of one side keeps to: the other side's root is left alone. -/
def raceContract (config : Side → Config) (candidate : Side → Record) (side : Side) :
    Contract Op Op.Ret RaceInput Shared where
  handle := Shared.handle config side
  rely s s' := s'.Inv candidate ∧ s'.root side = s.root side ∧
    s'.confirmed side = s.confirmed side
  allows op _ s := Orderly candidate side op s = true
  requires _ _ := True
  guarantee s s' := s'.Inv candidate ∧ s'.root side.other = s.root side.other ∧
    s'.confirmed side.other = s.confirmed side.other

section Steps

variable {config : Side → Config} {candidate : Side → Record} {side : Side} {op : Op}
  {s s' : Shared} {answer : Answer} {r : op.Ret}

/-- A step of one side leaves the other's root and read-back alone. -/
theorem Stepped.other (h : Stepped config side op s s' answer r) :
    s'.root side.other = s.root side.other ∧ s'.confirmed side.other = s.confirmed side.other := by
  obtain ⟨root', -, hroot⟩ := h.root
  constructor
  · rw [hroot, Function.update_of_ne side.other_ne]
  · rw [h.confirmed, Function.update_of_ne side.other_ne]

/-- A step of one side completes no journal of the other. -/
theorem Stepped.won_other (h : Stepped config side op s s' answer r) :
    s'.won side.other = s.won side.other := by
  rw [h.won, Function.update_of_ne side.other_ne]

/-- The other side is as settled as before. -/
theorem Stepped.settled_other (h : Stepped config side op s s' answer r) :
    s'.settled side.other = s.settled side.other := by
  unfold Shared.settled
  rw [h.other.2, h.won_other]

/-- Only a write of the journal completes it. -/
theorem not_completes (hop : ¬ op.isSave) : op.completes = false := by
  cases op with
  | save j => exact absurd trivial hop
  | _ => rfl

/-- A candidate is confirmed by a read-back that returned it. -/
theorem confirms_spec (h : s.confirms side op answer = true) :
    op = .resolve ∧ ∃ j, (s.root side).journal = some j ∧ answer = .record (.ok (some j.record)) := by
  unfold Shared.confirms at h
  split at h
  · obtain ⟨j, hj, rfl⟩ := of_decide_eq_true h
    exact ⟨rfl, j, hj, rfl⟩
  · cases h

/-- A side that was not settled becomes settled by reading its candidate back, or by writing
    a complete journal, which only a save does. -/
theorem Stepped.settled_self (h : Stepped config side op s s' answer r) (hop : ¬ op.isSave)
    (hs : s'.settled side = true) : s.settled side = true ∨ s.confirms side op answer = true := by
  have hwon : s'.won side = s.won side := by
    rw [h.won, Function.update_self, not_completes hop, Bool.or_false]
  unfold Shared.settled at hs ⊢
  rw [hwon, h.confirmed, Function.update_self] at hs
  simp only [Bool.or_eq_true] at hs ⊢
  rcases hs with (hc | hc) | hp
  · exact .inl (.inl hc)
  · exact .inr hc
  · exact .inl (.inr hp)

/-- A register put over nothing superseding leaves the new value. -/
theorem register_self {α : Type} [Signed α] (new : α) (found : Option α)
    (h : found = some new) : (register found new).1 = some new := by
  subst h
  unfold register
  dsimp only
  split <;> rfl

/-- A register keeps a record that supersedes the new one. -/
theorem register_superseded {α : Type} [Signed α] {found new : α} (h : Supersedes found new) :
    (register (some found) new).1 = some found := by
  simp [register, h]

/-- **One operation keeps the invariant**, if it writes no journal and puts only the side's own
    candidate, in order. -/
theorem Stepped.inv (h : Stepped config side op s s' answer r) (hs : s.Inv candidate)
    (hop : ¬ op.isSave) (hput : ∀ record, op = .put record → record = candidate side)
    (hok : Orderly candidate side op s = true) : s'.Inv candidate := by
  -- the register, where it was settled, keeps its value
  have hnames : ∀ side', s.settled side' = true → s'.names = some (candidate side') := by
    intro side' hsettled
    have hheld := hs.settled side' hsettled
    rcases h.names with hsame | ⟨record, hop', hreg⟩
    · rw [hsame]
      exact hheld
    · obtain rfl := hput record hop'
      rw [hreg, hheld]
      by_cases hside : side' = side
      · subst hside
        exact register_self _ _ rfl
      · have hother := Side.eq_other hside
        subst hother
        subst hop'
        exact register_superseded (of_decide_eq_true hok hsettled)
  obtain ⟨root', hroot, hupdate⟩ := h.root
  constructor
  · intro side'
    by_cases hside : side' = side
    · subst hside
      rw [hupdate, Function.update_self, (handle_keeps hop hroot).2]
      exact hs.journal side'
    · rw [hupdate, Function.update_of_ne hside]
      exact hs.journal side'
  · intro side' hsettled
    by_cases hside : side' = side
    · subst hside
      rcases h.settled_self hop hsettled with hold | hconfirms
      · exact hnames side' hold
      · -- read back just now: the register holds the candidate
        obtain ⟨hresolve, j, hj, hanswer⟩ := confirms_spec hconfirms
        obtain ⟨j', hj', hrec⟩ := hs.journal side'
        obtain rfl : j = j' := Option.some.inj (hj.symm.trans hj')
        rcases h.names with hsame | ⟨record, hop', -⟩
        · rw [hsame, ← h.readback _ hresolve hanswer, hrec]
        · rw [hresolve] at hop'
          cases hop'
    · have hother := Side.eq_other hside
      subst hother
      rw [h.settled_other] at hsettled
      exact hnames _ hsettled
  · intro side' j hj hphase
    by_cases hside : side' = side
    · subst hside
      rw [hupdate, Function.update_self, (handle_keeps hop hroot).2] at hj
      rw [h.won, Function.update_self, hs.won side' j hj hphase, Bool.true_or]
    · rw [hupdate, Function.update_of_ne hside] at hj
      rw [h.won, Function.update_of_ne hside]
      exact hs.won side' j hj hphase

/-- Writing the journal: still the side's candidate, and complete only after a read-back. -/
theorem inv_save {j : Journal} {r : Unit} (h : Stepped config side (.save j) s s' answer r)
    (hs : s.Inv candidate) (hj : j.record = candidate side)
    (hcomplete : j.phase = .complete → s.confirmed side = true) :
    s'.Inv candidate ∧ (s'.root side).journal = some j := by
  obtain ⟨root', hroot, hupdate⟩ := h.root
  have hjournal : (s'.root side).journal = some j := by
    rw [hupdate, Function.update_self]
    cases answer with
    | done =>
      obtain ⟨rfl, -⟩ := Prod.mk.inj (Option.some.inj hroot)
      rfl
    | _ => cases hroot
  have hnames : s'.names = s.names := by
    rcases h.names with hsame | ⟨record, hop, -⟩
    · exact hsame
    · cases hop
  have hconfirmed : s'.confirmed side = s.confirmed side := by
    rw [h.confirmed, Function.update_self]
    simp [Shared.confirms]
  refine ⟨⟨?_, ?_, ?_⟩, hjournal⟩
  · intro side'
    by_cases hside : side' = side
    · subst hside
      exact ⟨j, hjournal, hj⟩
    · rw [hupdate, Function.update_of_ne hside]
      exact hs.journal side'
  · intro side' hsettled
    rw [hnames]
    by_cases hside : side' = side
    · subst hside
      apply hs.settled
      unfold Shared.settled at hsettled ⊢
      rw [h.won, Function.update_self, hconfirmed] at hsettled
      simp only [Op.completes, Bool.or_eq_true, decide_eq_true_eq] at hsettled ⊢
      rcases hsettled with hc | hw | hphase
      · exact .inl hc
      · exact .inr hw
      · exact .inl (hcomplete hphase)
    · have hother := Side.eq_other hside
      subst hother
      rw [h.settled_other] at hsettled
      exact hs.settled _ hsettled
  · intro side' j' hj' hphase
    by_cases hside : side' = side
    · subst hside
      obtain rfl := Option.some.inj (hjournal.symm.trans hj')
      rw [h.won, Function.update_self, show (Op.save j).completes = true from decide_eq_true hphase,
        Bool.or_true]
    · rw [hupdate, Function.update_of_ne hside] at hj'
      rw [h.won, Function.update_of_ne hside]
      exact hs.won side' j' hj' hphase

end Steps

/-! ## §3. The calls of one side. -/

section Calls

variable {config : Side → Config} {candidate : Side → Record} {side : Side} {s : Shared}

/-- An operation that neither writes the journal nor puts a foreign record. -/
def Own (candidate : Side → Record) (side : Side) (op : Op) : Prop :=
  ¬ op.isSave ∧ ∀ record, op = .put record → record = candidate side

/-- A task without writes keeps the invariant, and what was read back stays read back. -/
theorem race_quiet {α : Type} {t : Act α} (ht : t.All (Own candidate side))
    (hs : s.Inv candidate) :
    Sat (raceContract config candidate side) t
      (fun _ s' => s'.Inv candidate ∧ (s.confirmed side = true → s'.confirmed side = true))
      (fun _ s' => s'.Inv candidate ∧ (s.confirmed side = true → s'.confirmed side = true))
      s := by
  refine sat_of_all (I := fun s' : Shared =>
    s'.Inv candidate ∧ (s.confirmed side = true → s'.confirmed side = true)) ?_ ?_ ht
    ⟨hs, fun h => h⟩
  · intro s₁ s₂ hI hr
    exact ⟨hr.1, fun h => by rw [hr.2.2]; exact hI.2 h⟩
  · intro op hop s₁ hI
    refine ⟨trivial, ?_⟩
    intro i s₂ r hok hh
    obtain ⟨answer, hstep⟩ := handle_stepped hh
    have hinv := hstep.inv hI.1 hop.1 hop.2 hok
    refine ⟨⟨hinv, hstep.other⟩, hinv, ?_⟩
    intro hc
    rw [hstep.confirmed, Function.update_self, hI.2 hc]
    rfl

/-- A question whose answer matters. -/
theorem race_ask (op : Op) {Q : op.Ret → Shared → Prop} {E : Failure → Shared → Prop}
    (hop : Own candidate side op)
    (h : ∀ s₁ s₂ answer r, s₁.Inv candidate → Stepped config side op s₁ s₂ answer r →
      s₂.Inv candidate → Q r s₂) :
    Sat (raceContract config candidate side) (perform op) Q E s := by
  refine sat_perform.mpr ?_
  intro s₁ hr
  refine ⟨trivial, ?_⟩
  intro i s₂ r hok hh
  obtain ⟨answer, hstep⟩ := handle_stepped hh
  have hinv := hstep.inv hr.1 hop.1 hop.2 hok
  exact ⟨⟨hinv, hstep.other⟩, h s₁ s₂ answer r hr.1 hstep hinv⟩

/-- A journal may be saved; a complete one only once it was confirmed. -/
theorem race_save {j : Journal} {Q : Unit → Shared → Prop} {E : Failure → Shared → Prop}
    (hj : j.record = candidate side) (hcomplete : j.phase = .complete → s.confirmed side = true)
    (h : ∀ s₂ : Shared, s₂.Inv candidate → (s₂.root side).journal = some j → Q () s₂) :
    Sat (raceContract config candidate side) (perform (.save j)) Q E s := by
  refine sat_perform.mpr ?_
  intro s₁ hr
  refine ⟨trivial, ?_⟩
  intro i s₂ r _ hh
  obtain ⟨answer, hstep⟩ := handle_stepped hh
  obtain ⟨hinv, hjournal⟩ := inv_save hstep hr.1 hj
    (fun hp => by rw [hr.2.2]; exact hcomplete hp)
  exact ⟨⟨hinv, hstep.other⟩, h s₂ hinv hjournal⟩

/-- Neither a write of the journal nor a publication put. -/
def Op.quiet : Op → Prop
  | .save _ => False
  | .put _ => False
  | _ => True

/-- A quiet operation touches no record of a side. -/
theorem own_of_quiet {op : Op} (hop : op.quiet) : Own candidate side op := by
  constructor
  · intro hsave
    cases op <;> first | exact hsave | exact hop
  · intro record hput
    subst hput
    exact hop.elim

/-- So does a program of one quiet operation. -/
theorem own_perform {op : Op} (hop : op.quiet) :
    (perform op).All (Own candidate side) :=
  Fiber.all_perform.mpr (own_of_quiet hop)

/-- So does `current`. -/
theorem own_current : current.All (Own candidate side) := by
  unfold current
  refine Fiber.all_bind (Fiber.all_raising (own_perform trivial)) fun found => ?_
  refine Fiber.all_bind (own_perform trivial) fun previous => ?_
  dsimp only
  cases highestOf (found ++ previous.toList) with
  | none => exact Fiber.all_pure _
  | some highest =>
    refine Fiber.all_bind (Fiber.all_ofExcept _) fun _ => ?_
    exact Fiber.all_bind (Fiber.all_raising (own_perform trivial)) fun _ => Fiber.all_pure _

/-- So does committing the locations. -/
theorem own_commitLocations (l : Locations) :
    (commitLocations l).All (Own candidate side) := by
  unfold commitLocations
  refine Fiber.all_bind (Fiber.all_raising (own_perform trivial)) fun _ => ?_
  refine Fiber.all_bind (Fiber.all_raising (own_perform trivial)) fun _ => ?_
  exact Fiber.all_bind (Fiber.all_ofExcept _) fun _ => Fiber.all_raising (own_perform trivial)

/-- The journal a side holds: its candidate, not complete. -/
def Pending (candidate : Side → Record) (side : Side) (j : Journal) : Prop :=
  j.record = candidate side ∧ j.phase ≠ .complete

/-- The offer goes on with a journal that is not settled. -/
theorem race_offer {j : Journal} {node : Seedbox} (hj : Pending candidate side j) :
    Sat (raceContract config candidate side) (offer j node)
      (fun j' s' => Pending candidate side j' ∧ s'.Inv candidate) (fun _ _ => True) s := by
  unfold offer
  rw [sat_bind]
  apply race_ask (.candidates node j.record)
    (own_of_quiet trivial)
  intro _ s₁ _ admission _ _ hs₁
  cases admission with
  | unreachable => exact ⟨hj, hs₁⟩
  | interrupted =>
    dsimp only
    rw [sat_bind]
    refine race_save hj.1 (fun hp => by cases hp) ?_
    intro s₂ hs₂ _
    exact ⟨⟨hj.1, by intro hp; cases hp⟩, hs₂⟩
  | conflicting body =>
    dsimp only
    rw [sat_bind]
    refine race_save hj.1 (fun hp => by cases hp) ?_
    intro s₂ _ _
    cases body with
    | ok text => exact trivial
    | error e => exact trivial
  | status code =>
    dsimp only
    rw [sat_ite]
    refine ⟨fun _ => ⟨hj, hs₁⟩, fun _ => ?_⟩
    rw [sat_ite]
    refine ⟨fun _ => trivial, fun _ => ?_⟩
    rw [sat_ite]
    refine ⟨fun _ => ⟨hj, hs₁⟩, fun _ => ?_⟩
    rw [sat_bind]
    refine race_save hj.1 (fun hp => absurd hp hj.2) ?_
    intro s₂ hs₂ _
    exact ⟨⟨hj.1, hj.2⟩, hs₂⟩

/-- So does waiting for the copy. -/
theorem race_awaitCopy {j : Journal} (hj : Pending candidate side j) (polls : Nat) (s : Shared)
    (hs : s.Inv candidate) :
    Sat (raceContract config candidate side) (awaitCopy j polls) (fun _ _ => True)
      (fun _ _ => True) s := by
  induction polls generalizing s with
  | zero => exact trivial
  | succ polls ih =>
    unfold awaitCopy
    rw [sat_bind]
    apply race_ask .completeNode (own_of_quiet trivial)
    intro _ s₁ _ node _ _ hs₁
    cases node with
    | none => exact ih s₁ hs₁
    | some name => exact race_save hj.1 (fun hp => by cases hp) (fun _ _ _ => trivial)

/-- The journal that a call of a side finds is the one of its candidate. -/
theorem held_journal {s₁ s₂ : Shared} {answer : Answer} {held : Option Journal}
    (hs : s₁.Inv candidate) (h : Stepped config side .journal s₁ s₂ answer held) :
    ∃ j, held = some j ∧ j.record = candidate side := by
  obtain ⟨root', hroot, -⟩ := h.root
  obtain ⟨j, hj, hrec⟩ := hs.journal side
  cases answer with
  | done =>
    obtain ⟨-, rfl⟩ := Prod.mk.inj (Option.some.inj hroot)
    exact ⟨j, hj, hrec⟩
  | _ => cases hroot

/-- `transfer` keeps the invariant of the race. -/
theorem race_transfer :
    Sat (raceContract config candidate side) (transfer (config side)) (fun _ _ => True)
      (fun _ _ => True) s := by
  unfold transfer
  rw [sat_bind]
  apply race_ask .journal (own_of_quiet trivial)
  intro s₀ s₁ _ held hs₀ hstep hs₁
  obtain ⟨j, rfl, hrec⟩ := held_journal hs₀ hstep
  dsimp only
  rw [sat_bind]
  refine sat_mono (race_quiet (Fiber.all_raising (own_perform trivial)) hs₁) ?_ (fun _ _ _ => trivial)
  intro value s₂ h₂
  rw [sat_bind]
  refine sat_mono (race_quiet (Fiber.all_raising (own_perform trivial)) h₂.1) ?_ (fun _ _ _ => trivial)
  intro _ s₃ h₃
  rw [sat_bind]
  refine race_save hrec (fun hp => by cases hp) ?_
  intro s₄ hs₄ _
  rw [sat_bind]
  have hloop := sat_foldlM (c := raceContract config candidate side) (E := fun _ _ => True) offer
    (fun _ j' s' => Pending candidate side j' ∧ s'.Inv candidate) (config side).nodes
    (fun _ _ _ _ _ _ hI => race_offer hI.1) { j with phase := .transferring } s₄
    ⟨⟨hrec, by intro hp; cases hp⟩, hs₄⟩
  refine sat_mono hloop ?_ (fun _ _ _ => trivial)
  intro j' s' h'
  rw [sat_bind, sat_ofExcept]
  exact ⟨fun _ _ => race_awaitCopy h'.1 (config side).polls s' h'.2, fun _ _ => trivial⟩

/-! ### Committing -/

/-- So do both puts. -/
theorem race_putBoth {j : Journal} (hrec : j.record = candidate side) (hs : s.Inv candidate) :
    Sat (raceContract config candidate side) (putBoth j) (fun _ s' => s'.Inv candidate)
      (fun _ _ => True) s := by
  unfold putBoth
  rw [sat_tryCatch]
  have hputs : Fiber.All (Own candidate side)
      (do
        commitLocations j.locations
        raising (perform (.put j.record)) : Act Unit) := by
    refine Fiber.all_bind (own_commitLocations j.locations) fun _ => ?_
    refine Fiber.all_raising (Fiber.all_perform.mpr ⟨fun h => h, ?_⟩)
    intro record hop
    obtain rfl := Op.put.inj hop
    exact hrec
  refine sat_mono (race_quiet hputs hs) (fun _ _ h => h.1) ?_
  intro e s₁ h₁
  rw [sat_ite]
  refine ⟨fun _ => ?_, fun _ => trivial⟩
  rw [sat_bind]
  exact race_save hrec (fun hp => by cases hp) (fun _ _ _ => trivial)

/-- The journal of the side is complete. -/
def Shared.complete (s : Shared) (side : Side) : Prop :=
  ∃ j, (s.root side).journal = some j ∧ j.phase = .complete

/-- **A commit that returns has read its candidate back and completed its journal.** -/
theorem race_confirm {j : Journal} (hrec : j.record = candidate side) :
    Sat (raceContract config candidate side) (confirm j) (fun _ s' => s'.complete side)
      (fun _ _ => True) s := by
  unfold confirm
  rw [sat_bind, show raising (perform .resolve) = Fiber.raising (perform .resolve) from rfl,
    sat_raising]
  apply race_ask .resolve (own_of_quiet trivial)
  intro s₁ s₂ answer r hs₁ hstep hs₂
  refine ⟨?_, fun _ _ => trivial⟩
  intro readback hr
  subst hr
  cases readback with
  | none => exact trivial
  | some readback =>
    dsimp only
    rw [sat_ite]
    constructor
    · intro _
      rw [sat_bind]
      exact race_save hrec (fun hp => by cases hp) (fun _ _ _ => trivial)
    · intro hsame
      obtain rfl := not_not.mp hsame
      -- the read-back returned the candidate, so that this side is confirmed from here on
      have hconfirmed : s₂.confirmed side = true := by
        obtain ⟨root', hroot, -⟩ := hstep.root
        obtain ⟨j', hj', hrec'⟩ := hs₁.journal side
        rw [hstep.confirmed, Function.update_self, (handle_resolve hroot).1, Bool.or_eq_true]
        right
        exact decide_eq_true ⟨j', hj', by rw [hrec, hrec']⟩
      rw [sat_bind]
      refine sat_mono (race_quiet (Fiber.all_raising (own_perform trivial)) hs₂) ?_ (fun _ _ _ => trivial)
      intro _ s₃ h₃
      rw [sat_bind]
      refine sat_mono (race_quiet (Fiber.all_raising (own_perform trivial)) h₃.1) ?_ (fun _ _ _ => trivial)
      intro value s₄ h₄
      rw [sat_bind]
      refine sat_mono (race_quiet (Fiber.all_raising (own_perform trivial)) h₄.1) ?_ (fun _ _ _ => trivial)
      intro _ s₅ h₅
      refine race_save hrec (fun _ => h₅.2 (h₄.2 (h₃.2 hconfirmed))) ?_
      intro s₆ _ hj
      exact ⟨_, hj, rfl⟩

theorem race_commit :
    Sat (raceContract config candidate side) commit (fun _ s' => s'.complete side)
      (fun _ _ => True) s := by
  unfold commit
  rw [sat_bind]
  apply race_ask .journal (own_of_quiet trivial)
  intro s₀ s₁ _ held hs₀ hstep hs₁
  obtain ⟨j, rfl, hrec⟩ := held_journal hs₀ hstep
  dsimp only
  rw [sat_bind]
  refine sat_mono (race_quiet (own_perform trivial) hs₁) ?_ (fun _ _ _ => trivial)
  intro node s₂ h₂
  rw [sat_bind, sat_ofExcept]
  refine ⟨?_, fun _ _ => trivial⟩
  intro _ _
  rw [sat_bind]
  refine sat_mono (race_quiet own_current h₂.1) ?_ (fun _ _ _ => trivial)
  intro now s₃ h₃
  rw [sat_ite]
  constructor
  · intro _
    rw [sat_bind]
    exact race_save hrec (fun hp => by cases hp) (fun _ _ _ => trivial)
  · intro _
    rw [sat_bind]
    refine race_save hrec (fun hp => by cases hp) ?_
    intro s₄ hs₄ _
    rw [sat_bind]
    refine sat_mono (race_putBoth hrec hs₄) ?_ (fun _ _ _ => trivial)
    intro _ s₅ _
    exact race_confirm hrec

end Calls

/-! ## §4. Runs. -/

/-- The calls that race. -/
inductive RaceCall where
  | transfer
  | commit
  deriving DecidableEq, Repr

def RaceCall.program (config : Config) : RaceCall → Act Unit
  | .transfer => Torrent.transfer config
  | .commit => Torrent.commit

abbrev RacePool := Pool Side RaceCall Op Op.Ret Failure Unit Shared

abbrev RaceEvent := PoolEvent Side RaceCall RaceInput

/-- A call begins with nothing observed and nothing read back. -/
def beginRace (side : Side) (_ : RaceCall) (s : Shared) : Shared :=
  { s with
    root := Function.update s.root side { s.root side with observed := [] }
    confirmed := Function.update s.confirmed side false }

def RacePool.step (config : Side → Config) : RacePool → RaceEvent → Option RacePool :=
  Pool.step (fun side call => call.program (config side)) beginRace
    (fun side _ => Shared.handle config side)

/-- Two publishers with a different candidate each, over the same base. -/
structure Rivals (p : RacePool) : Prop where
  idle : ∀ side, p.tasks side = none
  prepared : ∀ side, ∃ j, (p.shared.root side).journal = some j ∧ j.phase = .prepared
  base : (p.shared.root .left).journal.map (·.base) = (p.shared.root .right).journal.map (·.base)
  different : (p.shared.root .left).journal.map (·.record) ≠
    (p.shared.root .right).journal.map (·.record)
  unsettled : ∀ side, p.shared.settled side = false

/-- **No publication put replaces a candidate that was read back**: once the other side has
    read its candidate back or has ever completed its journal, that candidate supersedes the
    record being put. -/
def InOrder (p : RacePool) : RaceEvent → Bool
  | .advance side _ =>
    match p.doing side with
    | some (_, some (.put record)) => p.shared.settled side.other →
        ∀ j ∈ (p.shared.root side.other).journal, Supersedes j.record record
    | _ => true
  | _ => true

/-- At most one side was ever complete; a commit of the other that has ended has raised. -/
def OneWinner (p : RacePool) : Prop :=
  ∀ side, (p.shared.complete side → p.shared.won side = true) ∧
    (p.shared.won side = true → p.shared.won side.other = false ∧
      ∀ t, p.tasks side.other = some (.commit, t) → t.ended = true → ∃ e, t = .fail e)

def raceDiscipline (config : Side → Config) (candidate : Side → Record) :
    Discipline Side RaceCall Op Op.Ret Failure Unit RaceInput Shared where
  contract side _ := raceContract config candidate side
  inv := Shared.Inv candidate
  may _ _ _ := True
  returns side call _ s := call = .commit → s.complete side
  throws _ _ _ _ := True

section Runs

variable {config : Side → Config} {candidate : Side → Record}

theorem inv_begin {s : Shared} (hs : s.Inv candidate) (side : Side) (call : RaceCall) :
    (beginRace side call s).Inv candidate := by
  have hjournal : ∀ side', ((beginRace side call s).root side').journal =
      (s.root side').journal := by
    intro side'
    by_cases hside : side' = side
    · subst hside
      simp [beginRace]
    · simp [beginRace, Function.update_of_ne hside]
  refine ⟨?_, ?_, ?_⟩
  · intro side'
    rw [hjournal]
    exact hs.journal side'
  · intro side' hsettled
    apply hs.settled side'
    unfold Shared.settled at hsettled ⊢
    simp only [Bool.or_eq_true] at hsettled ⊢
    rcases hsettled with hc | hw
    · by_cases hside : side' = side
      · subst hside
        simp [beginRace] at hc
      · exact .inl (by simpa [beginRace, Function.update_of_ne hside] using hc)
    · exact .inr hw
  · intro side' j hj hphase
    rw [hjournal] at hj
    exact hs.won side' j hj hphase

theorem raceDiscipline_sound :
    (raceDiscipline config candidate).Sound (fun side call => call.program (config side))
      beginRace (fun side _ => Shared.handle config side) where
  handled _ _ _ _ _ := rfl
  rely_refl _ _ _ hs := ⟨hs, rfl, rfl⟩
  rely_trans _ _ _ _ _ h h' := ⟨h'.1, h'.2.1.trans h.2.1, h'.2.2.trans h.2.2⟩
  others side _ side' _ _ _ hne _ h := by
    obtain rfl := Side.eq_other (Ne.symm hne)
    exact h
  keeps _ _ _ _ _ h := h.1
  returns_stable side call _ s s' hr h hcall := by
    obtain ⟨j, hj, hphase⟩ := h hcall
    exact ⟨j, by rw [hr.2.1]; exact hj, hphase⟩
  throws_stable _ _ _ _ _ _ _ := trivial
  begins side call s hs _ := by
    refine ⟨inv_begin hs side call, ?_⟩
    intro side' _ hne
    exact ⟨inv_begin hs side call, Function.update_of_ne (Ne.symm hne) _ _,
      Function.update_of_ne (Ne.symm hne) _ _⟩
  program_sat side call s _ _ := by
    cases call with
    | transfer => exact sat_mono race_transfer (fun _ _ _ h => by cases h) (fun _ _ h => h)
    | commit => exact sat_mono race_commit (fun _ _ h _ => h) (fun _ _ h => h)

/-- The order of the puts, in terms of the candidates. -/
theorem permits_of_inOrder {p : RacePool} {e : RaceEvent} (hinv : p.shared.Inv candidate)
    (h : InOrder p e = true) : (raceDiscipline config candidate).Permits p e := by
  cases e with
  | start side call => exact trivial
  | drop side => exact trivial
  | advance side input =>
    intro call op next ht
    show Orderly candidate side op p.shared = true
    unfold Orderly
    split
    · rename_i record
      have hdoing : p.doing side = some (call, some (.put record)) := by
        unfold Pool.doing
        rw [ht]
        rfl
      simp only [InOrder, hdoing] at h
      obtain ⟨j, hj, hrec⟩ := hinv.journal side.other
      apply decide_eq_true
      intro hsettled
      rw [← hrec]
      exact of_decide_eq_true h hsettled j hj
    · rfl

end Runs

/-- **At most one publisher wins**, in every run whose publication puts are in order. -/
theorem at_most_one_complete (config : Side → Config) (start p : RacePool)
    (events : List RaceEvent) (hstart : Rivals start)
    (horder : Throughout (RacePool.step config) (fun p e => InOrder p e = true) start events)
    (hrun : run (RacePool.step config) start events = some p) : OneWinner p := by
  choose journal hjournal hphase using hstart.prepared
  have hdifferent : (journal .left).record ≠ (journal .right).record := by
    intro heq
    apply hstart.different
    rw [hjournal, hjournal]
    exact congrArg some heq
  generalize hcandidate : (fun side => (journal side).record) = candidate
  have hrecord : ∀ side, (journal side).record = candidate side := fun side => by
    rw [← hcandidate]
  rw [hrecord, hrecord] at hdifferent
  have hsound : (raceDiscipline config candidate).Sound _ _ _ := raceDiscipline_sound
  have hfresh : (raceDiscipline config candidate).Holds start := by
    constructor
    · refine ⟨fun side => ⟨journal side, hjournal side, hrecord side⟩, fun side hsettled => ?_,
        fun side j hj hcomplete => ?_⟩
      · rw [hstart.unsettled side] at hsettled
        cases hsettled
      · obtain rfl := Option.some.inj (hj.symm.trans (hjournal side))
        rw [hphase side] at hcomplete
        cases hcomplete
    · intro side call t ht
      rw [hstart.idle side] at ht
      cases ht
  have hkeep : ∀ p e p', (raceDiscipline config candidate).Holds p → InOrder p e = true →
      RacePool.step config p e = some p' → (raceDiscipline config candidate).Holds p' := by
    intro p e p' hI hok hstep
    exact hsound.step hI (permits_of_inOrder hI.inv hok) hstep
  have hp := run_invariant hkeep events start p hfresh horder hrun
  -- a side that was ever complete has its candidate in the register
  have hregister : ∀ side, p.shared.won side = true → p.shared.names = some (candidate side) := by
    intro side hwon
    refine hp.inv.settled side ?_
    unfold Shared.settled
    rw [hwon, Bool.or_true]
  have hone : ∀ side, p.shared.won side = true → p.shared.won side.other = false := by
    intro side h
    rw [← Bool.not_eq_true]
    intro h'
    have heq := (hregister side h).symm.trans (hregister side.other h')
    cases side with
    | left => exact hdifferent (Option.some.inj heq)
    | right => exact hdifferent (Option.some.inj heq).symm
  have hwon : ∀ side, p.shared.complete side → p.shared.won side = true := by
    rintro side ⟨j, hj, hcomplete⟩
    exact hp.inv.won side j hj hcomplete
  intro side
  refine ⟨hwon side, fun hside => ⟨hone side hside, ?_⟩⟩
  intro t ht hended
  have hsat := hp.sat side.other .commit t ht
  cases t with
  | done u =>
    have hother := hwon side.other (hsat rfl)
    rw [hone side hside] at hother
    cases hother
  | fail e => exact ⟨e, rfl⟩
  | call op next => cases hended

/-! ### Two publishers of the demo identity -/

/-- The root of each side after its own `prepare`: the right side's clock may be ahead. -/
def demoRivalRoot (left right : Nat) (side : Side) : Root :=
  let events := match side with
    | .left => demoPrepare left demoDescriptor
    | .right => demoPrepare right (List.replicate 20 3)
  ((run (RootPool.step demoConfig) .fresh events).getD .fresh).shared

def demoRivals (left right : Nat) : RacePool where
  shared :=
    { names := none
      hints := none
      root := demoRivalRoot left right
      confirmed := fun _ => false
      won := fun _ => false }
  tasks := fun _ => none

def raceStep (side : Side) (answer : Answer) : RaceEvent := .advance side (.plain answer)

/-- `transfer` of one side. -/
def demoRaceTransfer (side : Side) : List RaceEvent :=
  [.start side .transfer, raceStep side .done,
   raceStep side (.value (.ok ⟨demoDisk, none, none⟩)), raceStep side (.nothing (.ok ())),
   raceStep side .done, raceStep side (.admission (.status 202)), raceStep side .done,
   raceStep side (.node (some "n")), raceStep side .done]

/-- `commit` of one side up to its put: the base is still current, and the locations are
    published. -/
def demoRaceCheck (side : Side) : List RaceEvent :=
  [.start side .commit, raceStep side .done, raceStep side (.node (some "n")),
   raceStep side (.records (.ok [])), raceStep side .done, raceStep side .done,
   raceStep side (.putLocations .stored), raceStep side (.locations (.ok none)),
   raceStep side .done]

/-- The put, the read-back and the adoption of one side. -/
def demoRacePut (side : Side) : List RaceEvent :=
  [raceStep side (.put .stored), raceStep side (.record (.ok none)), raceStep side .done,
   raceStep side (.value (.ok ⟨demoDisk, none, none⟩)), raceStep side .done, raceStep side .done]

/-- Both check the base; the left side, whose sequence is higher, completes; the put of the
    right side then finds it. -/
def demoOrderlyRace : List RaceEvent :=
  demoRaceTransfer .right ++ demoRaceTransfer .left ++ demoRaceCheck .right ++
    demoRaceCheck .left ++ demoRacePut .left ++
    [raceStep .right (.put .stored), raceStep .right .done]

/-- Both check the base; the left side completes; the put of the right side, whose sequence is
    higher, replaces it, and the right side completes as well. -/
def demoLostRace : List RaceEvent :=
  demoRaceTransfer .left ++ demoRaceTransfer .right ++ demoRaceCheck .left ++
    demoRaceCheck .right ++ demoRacePut .left ++ demoRacePut .right

instance (s : Shared) (side : Side) : Decidable (s.complete side) :=
  decidable_of_iff (∃ j ∈ (s.root side).journal, j.phase = .complete) Iff.rfl

/-- What the info hash of each side's descriptor is. -/
def demoRivalHash : Side → Bytes
  | .left => demoDescriptor
  | .right => List.replicate 20 3

theorem demoRivals_rivals {left right : Nat}
    (h : ∀ side, ∃ j ∈ (demoRivalRoot left right side).journal, j.phase = .prepared ∧
      j.base = none ∧ j.record.infoHash = demoRivalHash side) : Rivals (demoRivals left right) := by
  choose journal hjournal hphase hbase hhash using h
  have hroot : ∀ side, ((demoRivals left right).shared.root side).journal = some (journal side) :=
    hjournal
  refine ⟨fun _ => rfl, fun side => ⟨journal side, hroot side, hphase side⟩, ?_, ?_, fun _ => rfl⟩
  · simp [hroot, hbase]
  · rw [hroot, hroot]
    intro heq
    have hrec : (journal .left).record = (journal .right).record := Option.some.inj heq
    have hsame : demoRivalHash .left = demoRivalHash .right := by
      rw [← hhash, ← hhash, hrec]
    revert hsame
    decide

/-- A run in order: the left publisher completes, the right one is told about it. -/
theorem demoOrderly_one_winner :
    ∃ p, run (RacePool.step fun _ => demoConfig) (demoRivals 2 1) demoOrderlyRace = some p ∧
      p.shared.complete .left ∧ OneWinner p := by
  have hrivals : Rivals (demoRivals 2 1) :=
    demoRivals_rivals (by intro side; cases side <;> decide +kernel)
  have hrun : run (RacePool.step fun _ => demoConfig) (demoRivals 2 1) demoOrderlyRace = some _ :=
    run_getD (by decide +kernel)
  exact ⟨_, hrun, by decide +kernel, at_most_one_complete (fun _ => demoConfig) (demoRivals 2 1) _
    demoOrderlyRace hrivals (by decide +kernel) hrun⟩

/-- **A publication is lost**: both publishers complete, one over the other. -/
theorem lost_update :
    Rivals (demoRivals 1 2) ∧
      ∃ p, run (RacePool.step fun _ => demoConfig) (demoRivals 1 2) demoLostRace = some p ∧
        p.shared.complete .left ∧ p.shared.complete .right := by
  refine ⟨demoRivals_rivals (by intro side; cases side <;> decide +kernel), _,
    run_getD (by decide +kernel), ?_, ?_⟩
  · decide +kernel
  · decide +kernel

end My98.Torrent
