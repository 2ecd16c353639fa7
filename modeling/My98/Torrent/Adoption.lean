/-
  My98.Torrent.Adoption — what a seedbox serves is what the adopted record names.

  A record is adopted in two places: at the end of its own job, with the value that
  `validate_publication` has just returned, and in the fast path of `schedule`, with the value
  that `verified` holds for its KEY AND SEQUENCE.  Two records of one identity may have the same
  sequence, so the second place may pair a record with the descriptor of another one.

    • `adoption_integrity` — in every run in which the fast path is only taken with an entry
      that a job for the same info hash made, every adopted row is a validated pair;
    • `adopted_foreign_descriptor` — the run in which a record is adopted with the descriptor
      of another record of the same sequence.
-/
import Mathlib.Algebra.Order.Ring.Nat
import Mathlib.Tactic.Common
import My98.Torrent.Node

namespace My98.Torrent.Seedbox

open My98.Lib

/-! ## §1. The invariant. -/

/-- `value` is what the record names, and the record was validated with it. -/
def Genuine (world : World) (node : Node) (record : Record) (value : Descriptor) : Prop :=
  world.named record.infoHash = some value ∧
    (record.publicKey, record.infoHash, value) ∈ node.validated

structure Node.Inv (world : World) (node : Node) : Prop where
  adopted : ∀ key record value, node.store.adopted key = some (record, value) →
    Genuine world node record value
  verified : ∀ j value, node.verified j = some value →
    ∃ r, node.filledBy j = some r ∧ r.publicKey = j.1 ∧ Genuine world node r value

/-- Nothing validated is forgotten. -/
def Grows (node node' : Node) : Prop := node.validated ⊆ node'.validated

/-- A pair that was validated stays validated. -/
theorem Genuine.grows {world : World} {node node' : Node} {record : Record} {value : Descriptor}
    (h : Genuine world node record value) (hg : Grows node node') :
    Genuine world node' record value := ⟨h.1, hg h.2⟩

/-- What keeps the invariant without looking further: the adopted rows and the history are as
    before, and verifications are at most forgotten. -/
theorem Node.Inv.keep {world : World} {node node' : Node} (h : node.Inv world)
    (hadopted : node'.store.adopted = node.store.adopted)
    (hverified : ∀ j value, node'.verified j = some value →
      node.verified j = some value ∧ node'.filledBy j = node.filledBy j)
    (hg : Grows node node') : node'.Inv world := by
  constructor
  · intro key record value ha
    rw [hadopted] at ha
    exact (h.adopted key record value ha).grows hg
  · intro j value hv
    obtain ⟨hold, hfilled⟩ := hverified j value hv
    obtain ⟨r, hr, hkey, hgen⟩ := h.verified j value hold
    exact ⟨r, hfilled.trans hr, hkey, hgen.grows hg⟩

/-- A change of fields that the invariant does not mention. -/
theorem Node.Inv.frame {world : World} {node node' : Node} (h : node.Inv world)
    (hadopted : node'.store.adopted = node.store.adopted)
    (hverified : node'.verified = node.verified) (hfilled : node'.filledBy = node.filledBy)
    (hvalidated : node'.validated = node.validated) : node'.Inv world := by
  refine h.keep hadopted ?_ ?_
  · intro j value hv
    rw [hverified] at hv
    exact ⟨hv, by rw [hfilled]⟩
  · intro x hx
    rw [hvalidated]
    exact hx

/-! ## §2. Collection and scheduling. -/

section Schedule

variable {world : World} {node : Node}

/-- Collection only forgets verifications and creates retirements. -/
theorem collect_fields (world : World) (node : Node) :
    (node.collect world).store = node.store ∧ (node.collect world).validated = node.validated ∧
      (node.collect world).filledBy = node.filledBy ∧
      ∀ j value, (node.collect world).verified j = some value → node.verified j = some value := by
  unfold Node.collect
  split
  · exact ⟨rfl, rfl, rfl, fun _ _ h => h⟩
  · refine ⟨rfl, rfl, rfl, ?_⟩
    intro j value h
    dsimp only at h
    split at h
    · exact h
    · cases h

/-- Collecting keeps the invariant. -/
theorem Node.Inv.collect (h : node.Inv world) : (node.collect world).Inv world := by
  obtain ⟨hstore, hvalidated, hfilled, hverified⟩ := collect_fields world node
  refine h.keep (by rw [hstore]) ?_ (fun x hx => by rw [hvalidated]; exact hx)
  intro j value hv
  exact ⟨hverified j value hv, by rw [hfilled]⟩

/-- **An adoption keeps the invariant** if the value is the record's own. -/
theorem Node.Inv.adopt (h : node.Inv world) {record : Record} {value : Descriptor} {store : Store}
    (hadopt : Store.adopt world.wire record value node.store = .ok (store, ()))
    (hgen : Genuine world node record value) :
    ({ node with store := store } : Node).Inv world := by
  obtain ⟨-, candidates, rfl⟩ := Store.adopt_ok hadopt
  constructor
  · intro key r v hrow
    dsimp only at hrow
    by_cases hkey : key = record.publicKey
    · subst hkey
      rw [Function.update_self] at hrow
      obtain ⟨rfl, rfl⟩ := Prod.mk.inj (Option.some.inj hrow)
      exact hgen
    · rw [Function.update_of_ne hkey] at hrow
      exact h.adopted key r v hrow
  · exact h.verified

/-- Does the record take the fast path of `schedule`: it is verified, and everything it needs
    is seeding? -/
def Node.shortcut (node : Node) (seeding : Bytes → Bool) (record : Record) : Bool :=
  ∃ value ∈ node.verified (job record), ∀ ih ∈ rooted record.infoHash value,
    ih ∈ node.handles ∧ seeding ih = true

/-- Was the verification of the record's key and sequence made for the same info hash? -/
def Node.sameHash (node : Node) (record : Record) : Bool :=
  ∃ r ∈ node.filledBy (job record), r.infoHash = record.infoHash

/-- `schedule` keeps it, where the fast path meets its condition. -/
theorem schedule_inv {seeding : Bytes → Bool} {record : Record} {metadata : Option Bytes}
    {node' : Node} (h : node.Inv world)
    (hsame : node.store.publicNames record.publicKey = some record →
      node.shortcut seeding record = true → node.sameHash record = true)
    (hs : node.schedule world seeding record metadata = .ok node') :
    node'.Inv world ∧ node'.validated = node.validated := by
  have hreplicating : ∀ running spawned,
      ({ node with running := running, spawned := spawned } : Node).Inv world :=
    fun _ _ => h.frame rfl rfl rfl rfl
  unfold Node.schedule at hs
  dsimp only at hs
  cases hv : node.verified (job record) with
  | none =>
    rw [hv] at hs
    obtain rfl := Except.ok.inj hs
    split
    · exact ⟨h, rfl⟩
    · exact ⟨hreplicating _ _, rfl⟩
  | some value =>
    rw [hv] at hs
    dsimp only at hs
    split at hs
    · rename_i hseeding
      split at hs
      · rename_i hpublic
        have hshort : node.shortcut seeding record = true :=
          decide_eq_true ⟨value, hv, hseeding⟩
        obtain ⟨r, hr, hhash⟩ := of_decide_eq_true (hsame hpublic hshort)
        obtain ⟨r', hr', hkey, hgen⟩ := h.verified _ value hv
        obtain rfl : r = r' := Option.some.inj (hr.symm.trans hr')
        have hown : Genuine world node record value := by
          refine ⟨hhash ▸ hgen.1, ?_⟩
          have hmem := hgen.2
          rw [hkey, hhash] at hmem
          exact hmem
        cases hadopt : Store.adopt world.wire record value node.store with
        | error e =>
          rw [hadopt] at hs
          cases hs
        | ok out =>
          rw [hadopt] at hs
          obtain rfl := Except.ok.inj hs
          have hinv := (h.adopt hadopt hown).collect
          exact ⟨hinv, (collect_fields world _).2.1⟩
      · obtain rfl := Except.ok.inj hs
        exact ⟨h, rfl⟩
    · obtain rfl := Except.ok.inj hs
      split
      · exact ⟨h, rfl⟩
      · exact ⟨hreplicating _ _, rfl⟩

/-- So does its result. -/
theorem scheduled_inv {seeding : Bytes → Bool} {record : Record} {metadata : Option Bytes}
    (h : node.Inv world)
    (hsame : node.store.publicNames record.publicKey = some record →
      node.shortcut seeding record = true → node.sameHash record = true) :
    (node.scheduled world seeding record metadata).Inv world ∧
      (node.scheduled world seeding record metadata).validated = node.validated := by
  unfold Node.scheduled
  split
  · exact schedule_inv h hsame ‹_›
  · exact ⟨h, rfl⟩

/-- A node of a new process that has scheduled some of what its store holds. -/
structure Starting (world : World) (node node' : Node) : Prop where
  inv : node'.Inv world
  validated : node'.validated = node.validated
  unverified : ∀ j, node'.verified j = none

/-- With nothing verified there is no fast path: a job is created, or runs already. -/
theorem Starting.scheduled {node' : Node} (h : Starting world node node') (seeding : Bytes → Bool)
    (record : Record) (metadata : Option Bytes) :
    Starting world node (node'.scheduled world seeding record metadata) := by
  unfold Node.scheduled Node.schedule
  rw [h.unverified]
  dsimp only
  split
  · exact h
  · exact ⟨h.inv.frame rfl rfl rfl rfl, h.validated, h.unverified⟩

/-- Following more keys adopts nothing. -/
theorem foldl_follow_adopted (keys : List Bytes) (db : Store) :
    (keys.foldl (fun db key =>
      if key ∈ db.followed then db else { db with followed := db.followed ++ [key] }) db).adopted
      = db.adopted := by
  induction keys generalizing db with
  | nil => rfl
  | cons key rest ih =>
    rw [List.foldl_cons, ih]
    split <;> rfl

/-- **A restart keeps the adopted rows**: everything else is rebuilt by jobs. -/
theorem start_inv (h : node.Inv world) :
    (node.start world).Inv world ∧ (node.start world).validated = node.validated := by
  suffices key : Starting world node (node.start world) from ⟨key.inv, key.validated⟩
  unfold Node.start
  dsimp only
  refine List.foldlRecOn _ _ ?_ (fun n hn record _ => hn.scheduled _ record none)
  refine List.foldlRecOn _ _ ?_ (fun n hn row _ => hn.scheduled _ row.1 row.2)
  refine ⟨⟨?_, ?_⟩, rfl, fun _ => rfl⟩
  · intro key record value hrow
    dsimp only at hrow
    rw [foldl_follow_adopted] at hrow
    exact h.adopted key record value hrow
  · intro j value hv
    cases hv

end Schedule

/-! ## §3. The tasks. -/

/-- `finish` is only performed with a value that was just validated. -/
def nodeContract (world : World) : Contract Op Op.Ret Answer Node where
  handle := Node.handle world
  rely node node' := node'.Inv world ∧ Grows node node'
  allows _ _ _ := True
  requires op node := ∀ record value, op = .finish record value → Genuine world node record value
  guarantee node node' := node'.Inv world ∧ Grows node node'

section Tasks

variable {world : World} {node : Node}

/-- An awaited step has happened, or it has not. -/
theorem awaited_cases {node node' after : Node} {answer : Answer} {r : Except Failure Unit}
    (h : awaited node after answer = some (node', r)) : node' = after ∨ node' = node := by
  cases answer with
  | done => exact .inl (Prod.mk.inj (Option.some.inj h)).1.symm
  | failed e => exact .inr (Prod.mk.inj (Option.some.inj h)).1.symm

/-- Remembering a verification that was just made. -/
theorem Node.Inv.remember (h : node.Inv world) {record : Record} {value : Descriptor}
    (hgen : Genuine world node record value) :
    ({ node with
       verified := Function.update node.verified (job record) (some value)
       filledBy := Function.update node.filledBy (job record) (some record) } : Node).Inv world := by
  refine ⟨h.adopted, ?_⟩
  intro j v hv
  dsimp only at hv ⊢
  by_cases hj : j = job record
  · subst hj
    rw [Function.update_self] at hv ⊢
    obtain rfl := Option.some.inj hv
    exact ⟨record, rfl, rfl, hgen⟩
  · rw [Function.update_of_ne hj] at hv ⊢
    exact h.verified j v hv

/-- The end of a job adopts a pair that it has validated. -/
theorem finish_inv {record : Record} {value : Descriptor} (h : node.Inv world)
    (hgen : Genuine world node record value) (answer : Answer) :
    (node.finish world record value answer).1.Inv world ∧
      (node.finish world record value answer).1.validated = node.validated := by
  have hremember := h.remember hgen
  cases answer with
  | failed e => exact ⟨hremember, rfl⟩
  | done =>
    unfold Node.finish
    dsimp only
    split
    · split
      · rename_i store _ hadopt
        have hactive : ∀ active : List (Job × Bytes), ({ node with
            store := store
            verified := Function.update node.verified (job record) (some value)
            filledBy := Function.update node.filledBy (job record) (some record)
            active := active } : Node).Inv world :=
          fun _ => (hremember.adopt hadopt hgen).frame rfl rfl rfl rfl
        exact ⟨(hactive _).collect, (collect_fields world _).2.1⟩
      · exact ⟨hremember, rfl⟩
    · exact ⟨hremember, rfl⟩

/-- **Every operation keeps the invariant**, `finish` with a genuine value. -/
theorem handle_inv {op : Op} {answer : Answer} {node' : Node} {r : op.Ret} (h : node.Inv world)
    (hreq : ∀ record value, op = .finish record value → Genuine world node record value)
    (hh : Node.handle world op answer node = some (node', r)) :
    node'.Inv world ∧ Grows node node' := by
  have same : node.Inv world ∧ Grows node node := ⟨h, fun _ hx => hx⟩
  have framed : ∀ n : Node, n.store = node.store → n.verified = node.verified →
      n.filledBy = node.filledBy → n.validated = node.validated →
      n.Inv world ∧ Grows node n := by
    intro n hs hv hf hval
    exact ⟨h.frame (by rw [hs]) hv hf hval, fun x hx => by rw [hval]; exact hx⟩
  have kept : ∀ {β : Type} {n : Node} {out r : β}, some (n, out) = some (node', r) →
      n.store = node.store → n.verified = node.verified → n.filledBy = node.filledBy →
      n.validated = node.validated → node'.Inv world ∧ Grows node node' := by
    intro β n out r hout
    obtain ⟨rfl, -⟩ := Prod.mk.inj (Option.some.inj hout)
    exact framed n
  have awaiting : ∀ {after : Node} {answer : Answer} {r : Except Failure Unit},
      awaited node after answer = some (node', r) → after.store = node.store →
      after.verified = node.verified → after.filledBy = node.filledBy →
      after.validated = node.validated → node'.Inv world ∧ Grows node node' := by
    intro after answer r hout hs hv hf hval
    rcases awaited_cases hout with rfl | rfl
    · exact framed _ hs hv hf hval
    · exact same
  unfold Node.handle at hh
  split at hh
  -- the two operations that the invariant is about
  case h_19 record =>
    obtain ⟨value, -, hout⟩ := Option.map_eq_some_iff.mp hh
    obtain ⟨rfl, -⟩ := Prod.mk.inj hout
    have hgrows : Grows node
        { node with validated := (record.publicKey, record.infoHash, value) :: node.validated } :=
      fun x hx => List.mem_cons_of_mem _ hx
    exact ⟨h.keep rfl (fun _ _ hv => ⟨hv, rfl⟩) hgrows, hgrows⟩
  case h_21 record value =>
    obtain ⟨hinv, hval⟩ := finish_inv h (hreq record value rfl) answer
    have hnode : (node.finish world record value answer).1 = node' :=
      congrArg Prod.fst (Option.some.inj hh)
    rw [hnode] at hinv hval
    exact ⟨hinv, fun x hx => by rw [hval]; exact hx⟩
  -- guards on the state
  case h_3 =>
    split at hh
    · cases hh
    · exact kept hh rfl rfl rfl rfl
  case h_13 =>
    obtain ⟨value, -, hout⟩ := Option.map_eq_some_iff.mp hh
    exact kept (congrArg some hout) rfl rfl rfl rfl
  case h_16 =>
    split at hh
    · exact kept hh rfl rfl rfl rfl
    · cases hh
  case h_17 =>
    split at hh
    · exact kept hh rfl rfl rfl rfl
    · cases hh
  case h_23 =>
    split at hh
    · exact kept hh rfl rfl rfl rfl
    · split at hh
      · exact kept hh rfl rfl rfl rfl
      · exact kept hh rfl rfl rfl rfl
  case h_25 =>
    split at hh
    · exact kept hh rfl rfl rfl rfl
    · split at hh
      · exact kept hh rfl rfl rfl rfl
      · exact kept hh rfl rfl rfl rfl
  case h_27 => cases hh
  all_goals first
    | exact kept hh rfl rfl rfl rfl
    | exact awaiting hh rfl rfl rfl rfl

/-- An operation other than `finish`. -/
def Op.plain : Op → Prop
  | .finish _ _ => False
  | _ => True

/-- A task without `finish` keeps the contract. -/
theorem sat_plain {α : Type} {t : Act α} (ht : t.All Op.plain) (h : node.Inv world) :
    Sat (nodeContract world) t (fun _ node' => node'.Inv world) (fun _ node' => node'.Inv world)
      node := by
  refine sat_of_all (I := fun n : Node => n.Inv world) ?_ ?_ ht h
  · intro n n' _ hr
    exact hr.1
  · intro op hop n hn
    have hreq : ∀ record value, op = .finish record value → Genuine world n record value := by
      intro record value hfinish
      subst hfinish
      exact hop.elim
    refine ⟨hreq, ?_⟩
    intro i n' r _ hh
    have hinv := handle_inv hn hreq hh
    exact ⟨hinv, hinv.1⟩

/-- A program of one plain operation is plain. -/
theorem plain_perform {op : Op} (hop : op.plain) : (perform op).All Op.plain :=
  Fiber.all_perform.mpr hop

/-- Filling is plain. -/
theorem plain_fill (ih : Bytes) : (fill ih).All Op.plain := by
  unfold fill
  refine Fiber.all_bind (Fiber.all_raising (plain_perform trivial)) fun known => ?_
  refine Fiber.all_bind (Fiber.all_raising (plain_perform trivial)) fun _ => ?_
  refine Fiber.all_tryCatch ?_ fun e => ?_
  · have hrest : Fiber.All Op.plain
        (do
          raising (perform (.reserve ih))
          raising (perform (.complete ih)) : Act Unit) :=
      Fiber.all_bind (Fiber.all_raising (plain_perform trivial))
        fun _ => Fiber.all_raising (plain_perform trivial)
    cases known with
    | true => exact hrest
    | false => exact Fiber.all_bind (Fiber.all_raising (plain_perform trivial)) fun _ => hrest
  · exact Fiber.all_bind (plain_perform trivial) fun _ => Fiber.all_throw _

/-- So is a download. -/
theorem plain_download (ih : Bytes) (j : Job) : (download ih j).All Op.plain := by
  unfold download
  refine Fiber.all_bind (plain_perform trivial) fun _ => ?_
  refine Fiber.all_bind (plain_perform trivial) fun _ => ?_
  refine Fiber.all_tryCatch ?_ fun e => ?_
  · refine Fiber.all_bind (plain_perform trivial) fun held => ?_
    cases held with
    | true =>
      exact Fiber.all_bind (Fiber.all_raising (plain_perform trivial))
        fun _ => plain_perform trivial
    | false => exact Fiber.all_bind (plain_fill ih) fun _ => plain_perform trivial
  · exact Fiber.all_bind (plain_perform trivial) fun _ => Fiber.all_throw _

/-- So is a component. -/
theorem plain_component (ih : Bytes) (j : Job) : (component ih j).All Op.plain := by
  unfold component
  refine Fiber.all_tryCatch ?_ fun e => plain_perform trivial
  exact Fiber.all_bind (plain_download ih j) fun _ => plain_perform trivial

/-- So is retiring. -/
theorem plain_retire (ih : Bytes) : (Seedbox.retire ih).All Op.plain := by
  unfold Seedbox.retire
  refine Fiber.all_bind (plain_perform trivial) fun _ => ?_
  refine Fiber.all_bind ?_ fun _ => plain_perform trivial
  refine Fiber.all_tryCatch ?_ fun _ => Fiber.all_pure _
  refine Fiber.all_bind (plain_perform trivial) fun spared => ?_
  match spared with
  | none => exact Fiber.all_pure _
  | some false => exact plain_perform trivial
  | some true =>
    exact Fiber.all_bind (Fiber.all_raising (plain_perform trivial))
      fun _ => plain_perform trivial

/-- So is remembering. -/
theorem plain_remembering (record : Record) (metadata : Option Bytes) :
    (remembering record metadata).All Op.plain := by
  cases metadata with
  | none => exact Fiber.all_pure _
  | some _ => exact Fiber.all_raising (plain_perform trivial)

/-- A validation that succeeds returns what the record names. -/
theorem handle_validate {record : Record} {answer : Answer} {node' : Node} {value : Descriptor}
    (h : Node.handle world (.validatePublication record) answer node = some (node', .ok value)) :
    Genuine world node' record value := by
  cases answer with
  | failed e => cases (Prod.mk.inj (Option.some.inj h)).2
  | done =>
    obtain ⟨v, hv, hout⟩ := Option.map_eq_some_iff.mp h
    obtain ⟨rfl, hvalue⟩ := Prod.mk.inj hout
    obtain rfl := Except.ok.inj hvalue
    refine ⟨?_, List.mem_cons_self⟩
    unfold Node.descriptor at hv
    split at hv
    · exact hv
    · cases hv

/-- **The end of a job adopts its record with the record's own descriptor.** -/
theorem sat_conclude {record : Record} :
    Sat (nodeContract world)
      (do
        let value ← raising (perform (.validatePublication record))
        raising (perform (.finish record value)) : Act Unit)
      (fun _ node' => node'.Inv world) (fun _ node' => node'.Inv world) node := by
  rw [sat_bind]
  refine sat_raising.mpr (sat_perform.mpr ?_)
  intro n₁ hr₁
  have hreq₁ : ∀ r v, Op.validatePublication record = .finish r v → Genuine world n₁ r v := by
    intro r v hop
    cases hop
  refine ⟨hreq₁, ?_⟩
  intro i n₂ out _ hh
  have hinv := handle_inv hr₁.1 hreq₁ hh
  refine ⟨hinv, ?_, fun _ _ => hinv.1⟩
  intro value hvalue
  subst hvalue
  have hgen := handle_validate hh
  refine sat_raising.mpr (sat_perform.mpr ?_)
  intro n₃ hr₃
  have hreq : ∀ r v, Op.finish record value = .finish r v → Genuine world n₃ r v := by
    intro r v hop
    obtain ⟨rfl, rfl⟩ := Op.finish.inj hop
    exact hgen.grows hr₃.2
  refine ⟨hreq, ?_⟩
  intro i' n₄ out' _ hh'
  have hinv' := handle_inv hr₃.1 hreq hh'
  exact ⟨hinv', fun _ _ => hinv'.1, fun _ _ => hinv'.1⟩

/-- A job keeps the contract of the node. -/
theorem sat_replicate {record : Record} {metadata : Option Bytes} (h : node.Inv world) :
    Sat (nodeContract world) (replicate record metadata) (fun _ _ => True) (fun _ _ => True)
      node := by
  unfold replicate
  rw [sat_bind]
  have hbody : Sat (nodeContract world) (replicating record metadata)
      (fun _ node' => node'.Inv world) (fun _ node' => node'.Inv world) node := by
    unfold replicating
    rw [sat_bind]
    refine sat_mono (sat_plain (plain_remembering record metadata) h) ?_ (fun _ _ h => h)
    intro _ n₁ h₁
    rw [sat_bind]
    refine sat_mono (sat_plain (plain_download _ _) h₁) ?_ (fun _ _ h => h)
    intro _ n₂ h₂
    rw [sat_bind]
    refine sat_mono (sat_plain (Fiber.all_raising (plain_perform trivial)) h₂) ?_ (fun _ _ h => h)
    intro value n₃ h₃
    rw [sat_bind]
    refine sat_mono (sat_plain (plain_perform trivial) h₃) ?_ (fun _ _ h => h)
    intro _ n₄ h₄
    rw [sat_bind]
    refine sat_mono (sat_plain (Fiber.all_raising (plain_perform trivial)) h₄) ?_ (fun _ _ h => h)
    intro _ n₅ _
    exact sat_conclude
  have hrelease : ∀ n : Node, n.Inv world → Sat (nodeContract world)
      (perform (.release (job record))) (fun _ _ => True) (fun _ _ => True) n := by
    intro n hn
    exact sat_mono (sat_plain (plain_perform trivial) hn) (fun _ _ _ => trivial)
      (fun _ _ _ => trivial)
  rw [sat_tryCatch]
  exact sat_mono hbody (fun _ n hn => hrelease n hn) (fun _ n hn => hrelease n hn)

/-- **Every job keeps the contract.** -/
theorem program_sat (call : Call) (h : node.Inv world) :
    Sat (nodeContract world) call.program (fun _ _ => True) (fun _ _ => True) node := by
  cases call with
  | replicate record metadata => exact sat_replicate h
  | download ih j =>
    exact sat_mono (sat_plain (plain_component ih j) h) (fun _ _ _ => trivial)
      (fun _ _ _ => trivial)
  | retire ih =>
    exact sat_mono (sat_plain (plain_retire ih) h) (fun _ _ _ => trivial) (fun _ _ _ => trivial)

end Tasks

/-! ## §4. Runs. -/

def nodeDiscipline (world : World) : Discipline Owner Call Op Op.Ret Failure Unit Answer Node where
  contract _ _ := nodeContract world
  inv := Node.Inv world
  may _ _ _ := True
  returns _ _ _ _ := True
  throws _ _ _ _ := True

/-- The jobs follow the contract, and so their runs do. -/
theorem nodeDiscipline_sound (world : World) :
    (nodeDiscipline world).Sound (fun _ call => Call.program call) beginCall
      (fun _ _ => Node.handle world) where
  handled _ _ _ _ _ := rfl
  rely_refl _ _ _ h := ⟨h, fun _ hx => hx⟩
  rely_trans _ _ _ _ _ h h' := ⟨h'.1, fun _ hx => h'.2 (h.2 hx)⟩
  others _ _ _ _ _ _ _ _ h := h
  keeps _ _ _ _ _ h := h.1
  returns_stable _ _ _ _ _ _ _ := trivial
  throws_stable _ _ _ _ _ _ _ := trivial
  begins _ _ _ h _ :=
    ⟨h.frame rfl rfl rfl rfl, fun _ _ _ => ⟨h.frame rfl rfl rfl rfl, fun _ hx => hx⟩⟩
  program_sat _ call _ h _ := program_sat call (h.frame rfl rfl rfl rfl)

/-- **When the fast path is sound**: a record that the store accepts and that takes it was verified,
    under its key and sequence, by a job for the same info hash. -/
def Matched (world : World) (p : NodePool) : Event → Bool
  | .candidate record seeding =>
    (Store.acceptCandidate world.wire record none p.shared.store).isOk = true →
      p.shared.store.publicNames record.publicKey = some record →
      p.shared.shortcut seeding record = true → p.shared.sameHash record = true
  | .polled record seeding =>
    (Store.setPublic world.wire record p.shared.store).isOk = true →
      p.shared.shortcut seeding record = true → p.shared.sameHash record = true
  | _ => true

section Runs

variable {world : World}

/-- A submitted candidate keeps the invariant, where the fast path meets its condition. -/
theorem submit_inv {node : Node} {record : Record} {seeding : Bytes → Bool} (h : node.Inv world)
    (hsame : (Store.acceptCandidate world.wire record none node.store).isOk = true →
      node.store.publicNames record.publicKey = some record →
      node.shortcut seeding record = true → node.sameHash record = true) :
    (node.submit world seeding record).Inv world ∧
      (node.submit world seeding record).validated = node.validated := by
  unfold Node.submit
  split
  · rename_i store _ haccept
    rw [haccept] at hsame
    obtain ⟨candidates, rfl⟩ := Store.acceptCandidate_ok haccept
    have hnode : ({ node with store := { node.store with candidates := candidates } } : Node).Inv
        world := h.frame rfl rfl rfl rfl
    exact scheduled_inv hnode (hsame rfl)
  · exact ⟨h, rfl⟩

/-- So does a record that was polled. -/
theorem publish_inv {node : Node} {record : Record} {seeding : Bytes → Bool} (h : node.Inv world)
    (hsame : (Store.setPublic world.wire record node.store).isOk = true →
      node.shortcut seeding record = true → node.sameHash record = true) :
    (node.publish world seeding record).Inv world ∧
      (node.publish world seeding record).validated = node.validated := by
  unfold Node.publish
  split
  · rename_i store _ hset
    rw [hset] at hsame
    obtain ⟨-, observed, rfl⟩ := Store.setPublic_ok hset
    refine scheduled_inv (h.frame rfl rfl rfl rfl) ?_
    intro _ hshort
    exact hsame rfl hshort
  · exact ⟨h, rfl⟩

/-- One event of a running node. -/
theorem holds_step {p p' : NodePool} {e : Event} (hp : (nodeDiscipline world).Holds p)
    (hok : Matched world p e = true) (h : NodePool.step world p e = some p') :
    (nodeDiscipline world).Holds p' := by
  have hsound := nodeDiscipline_sound world
  have outside : ∀ node : Node, node.Inv world → node.validated = p.shared.validated →
      (nodeDiscipline world).Holds { p with shared := node } := by
    intro node hinv hval
    exact hsound.outside hp hinv fun _ _ => ⟨hinv, fun x hx => by rw [hval]; exact hx⟩
  cases e with
  | candidate record seeding =>
    unfold NodePool.step at h
    dsimp only at h
    split at h
    · obtain rfl := Option.some.inj h
      obtain ⟨hinv, hval⟩ := submit_inv hp.inv (of_decide_eq_true hok)
      exact outside _ hinv hval
    · cases h
  | polled record seeding =>
    unfold NodePool.step at h
    dsimp only at h
    split at h
    · obtain rfl := Option.some.inj h
      obtain ⟨hinv, hval⟩ := publish_inv hp.inv (of_decide_eq_true hok)
      exact outside _ hinv hval
    · cases h
  | located l =>
    unfold NodePool.step at h
    dsimp only at h
    split at h
    · rename_i store _ hset
      obtain ⟨locations, rfl⟩ := Store.setLocations_ok hset
      obtain rfl := Option.some.inj h
      exact outside _ (hp.inv.frame rfl rfl rfl rfl) rfl
    · obtain rfl := Option.some.inj h
      exact hp
  | restart =>
    obtain rfl := Option.some.inj h
    refine ⟨(start_inv hp.inv).1, ?_⟩
    intro k call t ht
    cases ht
  | run owner call =>
    unfold NodePool.step at h
    dsimp only at h
    split at h
    · exact hsound.step hp (show (nodeDiscipline world).Permits p (.start owner call) from trivial) h
    · cases h
  | advance owner answer =>
    have hpermits : (nodeDiscipline world).Permits p (.advance owner answer) :=
      fun _ _ _ _ => trivial
    exact hsound.step hp hpermits h

end Runs

/-- **Adoption integrity.**  In every run of a seedbox whose fast path is only taken by records
    of the same info hash: an adopted row pairs a record with the descriptor that its info hash
    names, and `validate_publication` returned that value for it. -/
theorem adoption_integrity (world : World) (events : List Event) (p : NodePool)
    (hmatched : Throughout (NodePool.step world) (fun p e => Matched world p e = true) .fresh events)
    (hrun : run (NodePool.step world) .fresh events = some p) (key : Bytes) (record : Record)
    (value : Descriptor) (hrow : p.shared.store.adopted key = some (record, value)) :
    world.named record.infoHash = some value ∧
      (record.publicKey, record.infoHash, value) ∈ p.shared.validated := by
  have hfresh : (nodeDiscipline world).Holds NodePool.fresh := by
    constructor
    · constructor
      · intro key record value hrow
        cases hrow
      · intro j value hv
        cases hv
    · intro k call t ht
      cases ht
  have hp := run_invariant (fun _ _ _ hI hok hs => holds_step hI hok hs) events _ p hfresh
    hmatched hrun
  exact hp.inv.adopted key record value hrow

/-! ### Two records of one sequence -/

def demoKey : Bytes := List.replicate 32 0

/-- The record with sequence 1 whose descriptor torrent is `n`. -/
def demoRecord (n : UInt8) : Record := ⟨demoKey, 1, List.replicate 20 n, List.replicate 64 0⟩

/-- The descriptor of torrent 1 names disk 11, every other one names disk 12. -/
def demoValue (infoHash : Bytes) : Descriptor :=
  if infoHash = List.replicate 20 1 then ⟨List.replicate 20 11, none, none⟩
  else ⟨List.replicate 20 12, none, none⟩

def demoWorld : World where
  wire := { check := fun _ _ _ => true, origins := fun origins => .ok origins }
  keys := [demoKey]
  named := fun infoHash => some (demoValue infoHash)

/-- The same number of successful awaits of one task. -/
def awaits (owner : Owner) (n : Nat) : List Event := List.replicate n (.advance owner .done)

def demoJob : Owner := .replication (job (demoRecord 1))

/-- The download of a component of the demo's job. -/
def demoComponent (disk : UInt8) : Owner :=
  .component (job (demoRecord 1)) (List.replicate 20 disk)

def demoStart (disk : UInt8) : Event :=
  .run (demoComponent disk) (.download (List.replicate 20 disk) (job (demoRecord 1)))

/-- A node starts, is offered record 1 and replicates it completely. -/
def demoVerify : List Event :=
  [.restart, .candidate (demoRecord 1) (fun _ => true),
   .run demoJob (.replicate (demoRecord 1) none)] ++
    awaits demoJob 11 ++ [demoStart 11] ++ awaits (demoComponent 11) 10 ++ awaits demoJob 4

/-- The DHT then names record 2, whose disk cannot be downloaded. -/
def demoFail : List Event :=
  [.polled (demoRecord 2) (fun _ => true), .run demoJob (.replicate (demoRecord 2) none)] ++
    awaits demoJob 11 ++ [demoStart 12] ++ awaits (demoComponent 12) 3 ++
    [.advance (demoComponent 12) (.failed (.other "timeout"))] ++
    awaits (demoComponent 12) 2 ++ [.advance demoJob (.failed (.other "timeout"))] ++
    awaits demoJob 1

/-- A record that was verified as a candidate is adopted when the DHT names it. -/
theorem demoVerify_genuine :
    ∃ p, run (NodePool.step demoWorld) .fresh
        (demoVerify ++ [.polled (demoRecord 1) (fun _ => true)]) = some p ∧
      demoWorld.named (List.replicate 20 1) = some (demoValue (List.replicate 20 1)) ∧
      (demoKey, List.replicate 20 1, demoValue (List.replicate 20 1)) ∈ p.shared.validated := by
  have hrun : run (NodePool.step demoWorld) .fresh
      (demoVerify ++ [.polled (demoRecord 1) (fun _ => true)]) = some _ :=
    run_getD (by decide +kernel)
  exact ⟨_, hrun, adoption_integrity demoWorld _ _ (by decide +kernel) hrun demoKey (demoRecord 1)
    (demoValue (List.replicate 20 1)) (by decide +kernel)⟩

/-- **Record 2 is adopted with the descriptor of record 1**: its own job failed, but the fast
    path found the verification of record 1 under the same key and sequence. -/
theorem adopted_foreign_descriptor :
    ∃ p, run (NodePool.step demoWorld) .fresh
        (demoVerify ++ demoFail ++ [.polled (demoRecord 2) (fun _ => true)]) = some p ∧
      p.shared.store.adopted demoKey
        = some (demoRecord 2, demoValue (demoRecord 1).infoHash) ∧
      demoWorld.named (demoRecord 2).infoHash ≠ some (demoValue (demoRecord 1).infoHash) ∧
      ((demoRecord 2).publicKey, (demoRecord 2).infoHash, demoValue (demoRecord 1).infoHash)
        ∉ p.shared.validated := by
  refine ⟨_, run_getD (by decide +kernel), ?_, ?_, ?_⟩
  · decide +kernel
  · decide +kernel
  · decide +kernel

end My98.Torrent.Seedbox
