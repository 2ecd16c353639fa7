/-
  My98.Torrent.Resume — when an interrupted publication becomes a conflict.

  `commit` writes the phase `conflict` into the journal in four places.  Two of them follow from
  a publication record that is neither the journal's base nor its candidate; the other two do
  not have to: the handler around the two puts also catches the `Conflict` of the independent
  LOCATIONS record, and the read-back check also fires when the DHT still answers with the base.

  `conflict_only_observed` is the property with exactly these two causes excluded (`Calm`), over
  every sequence of calls on one root, cut anywhere, with every answer of the network.
  `stale_locations_conflict` is the run in which the documented `locations` command, between
  `prepare` and `resume`, turns an untouched candidate into a conflict.
-/
import Mathlib.Algebra.Order.Ring.Nat
import Mathlib.Tactic.Common
import My98.Torrent.Publisher

namespace My98.Torrent

open My98.Lib

/-! ## §1. What an operation does to a root. -/

/-- Nothing observed is forgotten. -/
structure Root.Moves (root root' : Root) : Prop where
  grows : Store.Grows root.store root'.store
  observed : ∃ more, root'.observed = root.observed ++ more

/-- Nothing done moves a root nowhere. -/
theorem Root.Moves.refl (root : Root) : root.Moves root :=
  ⟨Store.Grows.refl _, [], (List.append_nil _).symm⟩

/-- One move after another is a move. -/
theorem Root.Moves.trans {a b d : Root} (h : a.Moves b) (h' : b.Moves d) : a.Moves d := by
  obtain ⟨more, hm⟩ := h.observed
  obtain ⟨more', hm'⟩ := h'.observed
  exact ⟨h.grows.trans h'.grows, more ++ more', by rw [hm', hm, List.append_assoc]⟩

/-- Seeing records only adds to what was observed. -/
theorem Root.moves_shown (root : Root) (records : List Record) : root.Moves (root.shown records) :=
  ⟨Store.Grows.refl _, records, rfl⟩

/-- A transaction of the root, with its effect on the store. -/
theorem Root.transact_cases {α : Type} (root : Root) (t : Transaction α) :
    (∃ store a, t root.store = .ok (store, a) ∧
        root.transact t = ({ root with store := store }, .ok a)) ∨
      ∃ e, t root.store = .error e ∧ root.transact t = (root, .error e) := by
  unfold Root.transact
  obtain ⟨store, a, hok, hrun⟩ | ⟨e, he, hrun⟩ := Store.run_cases t root.store
  · rw [hrun]
    exact .inl ⟨store, a, hok, rfl⟩
  · rw [hrun]
    exact .inr ⟨e, he, rfl⟩

/-- An operation that writes no journal: everything observed stays, the journal too. -/
def Root.Keeps (root root' : Root) : Prop := root.Moves root' ∧ root'.journal = root.journal

/-- Nothing done keeps the journal. -/
theorem Root.Keeps.refl (root : Root) : root.Keeps root := ⟨Root.Moves.refl root, rfl⟩

/-- One step that keeps the journal after another. -/
theorem Root.Keeps.trans {a b d : Root} (h : a.Keeps b) (h' : b.Keeps d) : a.Keeps d :=
  ⟨h.1.trans h'.1, h'.2.trans h.2⟩

section Answers

variable {β : Type} {root root' : Root} {r : β}

/-- An operation that answers from the root as it is keeps it. -/
theorem keeps_of_same {out : β} (h : some (root, out) = some (root', r)) : root.Keeps root' := by
  obtain ⟨rfl, -⟩ := Prod.mk.inj (Option.some.inj h)
  exact Root.Keeps.refl root

/-- An operation that only sees records keeps the root. -/
theorem keeps_of_shown {records : List Record} {out : β}
    (h : some (root.shown records, out) = some (root', r)) : root.Keeps root' := by
  obtain ⟨rfl, -⟩ := Prod.mk.inj (Option.some.inj h)
  exact ⟨root.moves_shown records, rfl⟩

/-- A transaction on a store that only grows keeps the root, whether it commits or raises. -/
theorem keeps_of_transact {α : Type} {t : Transaction α} {r : Except Failure α}
    (hgrows : ∀ store a, t root.store = .ok (store, a) → Store.Grows root.store store)
    (h : some (root.transact t) = some (root', r)) : root.Keeps root' := by
  obtain ⟨store, a, hok, hrun⟩ | ⟨e, -, hrun⟩ := root.transact_cases t
  · rw [hrun] at h
    obtain ⟨rfl, -⟩ := Prod.mk.inj (Option.some.inj h)
    exact ⟨⟨hgrows store a hok, [], (List.append_nil _).symm⟩, rfl⟩
  · rw [hrun] at h
    exact keeps_of_same h

end Answers

/-- Is the operation a write of the journal? -/
def Op.isSave : Op → Prop
  | .save _ => True
  | _ => False

/-- Does the operation neither write the journal, nor store a candidate, nor send a record out? -/
def Op.isQuiet : Op → Prop
  | .save _ => False
  | .acceptCandidate _ _ => False
  | .candidates _ _ => False
  | .put _ => False
  | _ => True

/-- A quiet operation never writes the journal. -/
theorem Op.isQuiet.not_save {op : Op} (h : op.isQuiet) : ¬ op.isSave := by
  cases op <;> first | exact fun hs => hs | exact fun _ => h

/-- **Every operation only adds to what was observed, and only `save` writes the journal.** -/
theorem handle_keeps {config : Config} {op : Op} {i : Answer} {root root' : Root} {r : op.Ret}
    (hop : ¬ op.isSave) (h : Root.handle config op i root = some (root', r)) :
    root.Keeps root' := by
  unfold Root.handle at h
  split at h
  case h_2 => exact absurd trivial hop
  -- the store: what each transaction does to the observed table
  case h_3 =>
    refine keeps_of_transact ?_ h
    intro store a hok
    obtain ⟨followed, rfl⟩ := Store.follow_ok hok
    exact Store.Grows.of_eq rfl
  case h_5 => exact keeps_of_transact (fun _ _ hok => (Store.observe_ok hok).1) h
  case h_7 =>
    refine keeps_of_transact ?_ h
    intro store a hok
    obtain ⟨candidates, rfl⟩ := Store.acceptCandidate_ok hok
    exact Store.Grows.of_eq rfl
  case h_8 => exact keeps_of_transact (fun _ _ hok => (Store.setPublic_ok hok).1) h
  case h_9 =>
    refine keeps_of_transact ?_ h
    intro store a hok
    obtain ⟨-, candidates, rfl⟩ := Store.adopt_ok hok
    exact Store.Grows.of_eq rfl
  case h_11 =>
    refine keeps_of_transact ?_ h
    intro store a hok
    obtain ⟨locations, rfl⟩ := Store.setLocations_ok hok
    exact Store.Grows.of_eq rfl
  -- the network: what was shown is remembered
  case h_4 => exact keeps_of_shown h
  case h_24 =>
    split at h
    · exact keeps_of_shown h
    · cases h
  case h_26 =>
    split at h
    · exact keeps_of_shown h
    · cases h
  case h_29 record answer root =>
    obtain ⟨out, -, hout⟩ := Option.map_eq_some_iff.mp h
    exact keeps_of_shown (congrArg some hout)
  case h_30 =>
    obtain ⟨out, -, hout⟩ := Option.map_eq_some_iff.mp h
    exact keeps_of_same (congrArg some hout)
  case h_31 => cases h
  all_goals exact keeps_of_same h

/-! ## §2. The invariant of a root. -/

/-- A journal over a base: the base was observed, and the candidate is above it. -/
def Journal.Sound (config : Config) (store : Store) (j : Journal) : Prop :=
  ∀ b, j.base = some b → b.sequence < j.record.sequence ∧
    ∃ o, store.observed config.signer.publicKey = some o ∧ b.sequence ≤ o.sequence

/-- A sound journal stays sound while the store grows. -/
theorem Journal.Sound.grows {config : Config} {store store' : Store} {j : Journal}
    (h : j.Sound config store) (hg : Store.Grows store store') : j.Sound config store' := by
  intro b hb
  obtain ⟨hlt, o, ho, hle⟩ := h b hb
  obtain ⟨o', ho', hle'⟩ := hg _ o ho
  exact ⟨hlt, o', ho', hle.trans hle'⟩

/-- The journal in the file is sound. -/
def Root.Sensible (config : Config) (root : Root) : Prop :=
  ∀ j, root.journal = some j → j.Sound config root.store

/-- A root stays sensible under whatever keeps its journal. -/
theorem Root.Sensible.keeps {config : Config} {root root' : Root} (h : root.Sensible config)
    (hk : root.Keeps root') : root'.Sensible config := by
  intro j hj
  rw [hk.2] at hj
  exact (h j hj).grows hk.1.grows

/-- A publication record that is neither the base nor the candidate was shown to this call. -/
def Root.Displaced (root : Root) (j : Journal) : Prop :=
  ∃ r ∈ root.observed, some r ≠ j.base ∧ r ≠ j.record

/-- **The answers under which `commit` keeps its word**: the locations record it freezes is
    still the newest in the DHT and in the store, the locations read-back returns it, and the
    publication read-back does not return the base. -/
def Calm (op : Op) (input : Answer) (root : Root) : Bool :=
  match op, input with
  | .putLocations _, .putLocations (.superseded _) => false
  | .resolveLocations, .locations (.error e) => !e.isConflict
  | .resolveLocations, .locations (.ok found) => ∀ j ∈ root.journal, found = some j.locations
  | .setLocations l, _ => ∀ known ∈ root.store.locations l.publicKey, ¬ Supersedes known l
  | .resolve, .record (.ok (some r)) => ∀ j ∈ root.journal, j.base ≠ some r
  | _, _ => true

/-- What a call on a root keeps to. -/
def rootContract (config : Config) (call : Call) : Contract Op Op.Ret Answer Root where
  handle := Root.handle config
  rely root root' := root = root'
  allows op input root := call = .commit → Calm op input root = true
  requires op root := ∀ j, op = .save j → call = .commit → j.phase = .conflict → root.Displaced j
  guarantee _ root' := root'.Sensible config

/-! ## §3. Calls that do not commit. -/

section Calls

variable {config : Config} {call : Call} {root : Root}

/-- A step that writes no journal. -/
theorem sat_keeps (op : Op) {Q : op.Ret → Root → Prop} {E : Failure → Root → Prop}
    (hop : ¬ op.isSave) (hs : root.Sensible config)
    (h : ∀ i root' r, (call = .commit → Calm op i root = true) →
      Root.handle config op i root = some (root', r) → root'.Sensible config →
      root.Keeps root' → Q r root') :
    Sat (rootContract config call) (perform op) Q E root := by
  refine sat_perform.mpr ?_
  intro root₁ hr
  obtain rfl : root = root₁ := hr
  constructor
  · intro j hj
    rw [hj] at hop
    exact absurd trivial hop
  · intro i root' r ha hh
    have hk := handle_keeps hop hh
    exact ⟨hs.keeps hk, h i root' r ha hh (hs.keeps hk) hk⟩

/-- A write of the journal. -/
theorem sat_save {j : Journal} {Q : Unit → Root → Prop} {E : Failure → Root → Prop}
    (hreq : call = .commit → j.phase = .conflict → root.Displaced j)
    (hj : j.Sound config root.store) (h : Q () { root with journal := some j }) :
    Sat (rootContract config call) (perform (.save j)) Q E root := by
  refine sat_perform.mpr ?_
  intro root₁ hr
  obtain rfl : root = root₁ := hr
  constructor
  · intro j' hj'
    obtain rfl := Op.save.inj hj'
    exact hreq
  · intro i root' r _ hh
    cases i with
    | done =>
      obtain ⟨rfl, -⟩ := Prod.mk.inj (Option.some.inj hh)
      refine ⟨?_, h⟩
      intro j' hj'
      obtain rfl := Option.some.inj hj'
      exact hj
    | _ => cases hh

/-- A task that never writes the journal keeps the root sensible and forgets nothing. -/
theorem sat_quiet {α : Type} {t : Act α} (ht : t.All fun op => ¬ op.isSave)
    (hs : root.Sensible config) :
    Sat (rootContract config call) t
      (fun _ root' => root'.Sensible config ∧ root.Keeps root')
      (fun _ root' => root'.Sensible config ∧ root.Keeps root') root := by
  refine sat_of_all (I := fun root' => root'.Sensible config ∧ root.Keeps root') ?_ ?_ ht
    ⟨hs, Root.Keeps.refl root⟩
  · intro s s₁ hI hr
    obtain rfl : s = s₁ := hr
    exact hI
  · intro op hop s hI
    constructor
    · intro j hj
      rw [hj] at hop
      exact absurd trivial hop
    · intro i s₂ r _ hh
      have hk := handle_keeps hop hh
      exact ⟨hI.1.keeps hk, hI.1.keeps hk, hI.2.trans hk⟩

/-- Asking an operation that may raise. -/
theorem sat_ask {α : Type} {t : Act (Except Failure α)} {Q : α → Root → Prop}
    {E : Failure → Root → Prop}
    (h : Sat (rootContract config call) t
      (fun x root' => (∀ a, x = .ok a → Q a root') ∧ ∀ e, x = .error e → E e root') E root) :
    Sat (rootContract config call) (raising t) Q E root :=
  sat_raising.mpr h

/-! ### The current publication -/

/-- The later of two records is one of them. -/
theorem mem_of_later {a b : Option Record} {r : Record} (h : Store.later a b = some r) :
    a = some r ∨ b = some r := by
  cases a with
  | none => exact .inr h
  | some x =>
    cases b with
    | none => exact .inl h
    | some y =>
      simp only [Store.later] at h
      split at h
      · exact .inr h
      · exact .inl h

/-- What a fold of `later` ends with is its start or one of the records. -/
theorem foldl_later_mem (records : List Record) (start : Option Record) (r : Record)
    (h : records.foldl (fun best x => Store.later best (some x)) start = some r) :
    start = some r ∨ r ∈ records := by
  induction records generalizing start with
  | nil => exact .inl h
  | cons x rest ih =>
    rcases ih (Store.later start (some x)) h with hlater | hrest
    · rcases mem_of_later hlater with hstart | hx
      · exact .inl hstart
      · exact .inr (by rw [Option.some.inj hx]; exact List.mem_cons_self)
    · exact .inr (List.mem_cons_of_mem x hrest)

/-- The highest record is one of the records. -/
theorem highestOf_mem {records : List Record} {r : Record} (h : highestOf records = some r) :
    r ∈ records := by
  rcases foldl_later_mem records none r h with hnone | hmem
  · cases hnone
  · exact hmem

/-- A record and anything have a later one. -/
theorem later_some (a : Option Record) (x : Record) : Store.later a (some x) ≠ none := by
  cases a with
  | none => simp [Store.later]
  | some y =>
    simp only [Store.later]
    split <;> simp

/-- Only no records have no highest one. -/
theorem highestOf_none {records : List Record} (h : highestOf records = none) : records = [] := by
  suffices key : ∀ (l : List Record) (start : Option Record), start ≠ none →
      l.foldl (fun best x => Store.later best (some x)) start ≠ none by
    cases records with
    | nil => rfl
    | cons x rest => exact absurd h (key rest _ (later_some none x))
  intro l
  induction l with
  | nil =>
    intro start hs
    exact hs
  | cons x rest ih =>
    intro start _
    exact ih _ (later_some start x)

/-- `gather` answers records that the signer's key verifies, and has seen them all, or raises. -/
theorem handle_gather {i : Answer} {root' : Root} {r : Except Failure (List Record)}
    (h : Root.handle config .gather i root = some (root', r)) :
    (∃ found, r = .ok found ∧ (∀ x ∈ found, authentic config x) ∧ root' = root.shown found) ∨
      ∃ e, r = .error e := by
  cases i with
  | records answer =>
    cases answer with
    | error e => exact .inr ⟨e, (Prod.mk.inj (Option.some.inj h)).2.symm⟩
    | ok found =>
      unfold Root.handle at h
      dsimp only at h
      split at h
      · rename_i hall
        obtain ⟨rfl, rfl⟩ := Prod.mk.inj (Option.some.inj h)
        exact .inl ⟨found, rfl, List.all_eq_true.mp hall, rfl⟩
      · cases h
  | _ => cases h

/-- `highest` answers the observed record, and has seen it. -/
theorem handle_highest {i : Answer} {root' : Root} {r : Option Record}
    (h : Root.handle config .highest i root = some (root', r)) :
    r = root.store.observed config.signer.publicKey ∧ root' = root.shown r.toList := by
  cases i with
  | done =>
    obtain ⟨rfl, rfl⟩ := Prod.mk.inj (Option.some.inj h)
    exact ⟨rfl, rfl⟩
  | _ => cases h

/-- Once `observe` returns, the observed record has at least the sequence of the given one. -/
theorem handle_observe {record : Record} {i : Answer} {root' : Root} {news : Bool}
    (h : Root.handle config (.observe record) i root = some (root', .ok news)) :
    ∃ o, root'.store.observed record.publicKey = some o ∧ record.sequence ≤ o.sequence := by
  cases i with
  | done =>
    have h' := Option.some.inj h
    obtain ⟨store, a, hok, hrun⟩ | ⟨e, -, hrun⟩ :=
      root.transact_cases (Store.observe config.wire record)
    · rw [hrun] at h'
      obtain ⟨rfl, -⟩ := Prod.mk.inj h'
      exact (Store.observe_ok hok).2.2
    · rw [hrun] at h'
      cases (Prod.mk.inj h').2
  | _ => cases h

/-- What `current` may claim: a record that this call was shown and that is now observed, or
    nothing, when nothing had ever been observed. -/
structure IsCurrent (config : Config) (now : Option Record) (root root' : Root) : Prop where
  sensible : root'.Sensible config
  keeps : root.Keeps root'
  seen : ∀ r, now = some r → r ∈ root'.observed ∧
    ∃ o, root'.store.observed config.signer.publicKey = some o ∧ r.sequence ≤ o.sequence
  empty : now = none → root.store.observed config.signer.publicKey = none

/-- `current` answers a record that was shown and is observed, or that none ever was. -/
theorem sat_current (hs : root.Sensible config) :
    Sat (rootContract config call) current (fun now root' => IsCurrent config now root root')
      (fun _ root' => root'.Sensible config ∧ root.Keeps root') root := by
  unfold current
  rw [sat_bind]
  apply sat_ask
  apply sat_keeps .gather (fun h => h) hs
  intro i root₁ r _ hh hs₁ hk₁
  constructor
  swap
  · intro e _
    exact ⟨hs₁, hk₁⟩
  · intro found hr
    -- The records that were gathered are authentic, and this call was shown them.
    obtain ⟨found', hr', hauth, hshown⟩ | ⟨e, he⟩ := handle_gather hh
    swap
    · rw [hr] at he
      cases he
    obtain rfl : found = found' := Except.ok.inj (hr.symm.trans hr')
    rw [sat_bind]
    apply sat_keeps .highest (fun h => h) hs₁
    intro i₂ root₂ previous _ hh₂ hs₂ hk₂
    obtain ⟨hprev, hshown₂⟩ := handle_highest hh₂
    have hk := hk₁.trans hk₂
    dsimp only
    -- Nothing at all means that nothing was ever observed under the key.
    cases hmax : highestOf (found ++ previous.toList) with
    | none =>
      dsimp only
      rw [sat_pure]
      obtain ⟨-, hpnil⟩ := List.append_eq_nil_iff.mp (highestOf_none hmax)
      refine ⟨hs₂, hk, ?_, ?_⟩
      · intro r h
        cases h
      intro _
      have hnone : previous = none := by
        cases previous with
        | none => rfl
        | some x => cases hpnil
      rw [hprev, hshown] at hnone
      exact hnone
    | some highest =>
      dsimp only
      have hmem := highestOf_mem hmax
      have hseen₂ : highest ∈ root₂.observed := by
        rw [hshown₂, hshown]
        simp only [Root.shown, List.mem_append] at hmem ⊢
        rcases hmem with hmem | hmem
        · exact .inl (.inr hmem)
        · exact .inr hmem
      rw [sat_bind, sat_ofExcept]
      refine ⟨?_, fun _ _ => ⟨hs₂, hk⟩⟩
      intro _ _
      rw [sat_bind]
      apply sat_ask
      apply sat_keeps (.observe highest) (fun h => h) hs₂
      intro i₃ root₃ out _ hh₃ hs₃ hk₃
      refine ⟨?_, fun _ _ => ⟨hs₃, hk.trans hk₃⟩⟩
      intro news hnews
      rw [sat_pure]
      subst hnews
      obtain ⟨o, ho, hle⟩ := handle_observe hh₃
      refine ⟨hs₃, hk.trans hk₃, ?_, fun h => (Option.some_ne_none _ h).elim⟩
      intro r hr'
      obtain rfl := Option.some.inj hr'
      obtain ⟨more, hmore⟩ := hk₃.1.observed
      refine ⟨by rw [hmore]; exact List.mem_append_left _ hseen₂, ?_⟩
      -- The highest record was gathered, or it was observed before.
      rcases List.mem_append.mp hmem with hfound | hprevious
      · have hkey : highest.publicKey = config.signer.publicKey := by
          have := hauth highest hfound
          unfold authentic at this
          exact (of_decide_eq_true this).1
        rw [hkey] at ho
        exact ⟨o, ho, hle⟩
      · have hprev' : previous = some highest := Option.mem_toList.mp hprevious
        rw [hprev'] at hprev
        exact (hk₂.1.grows.trans hk₃.1.grows) _ _ hprev.symm

/-! ### Quiet parts -/

/-- Preparing the locations writes no journal. -/
theorem quiet_prepareLocations : (prepareLocations config).All Op.isQuiet := by
  unfold prepareLocations
  refine Fiber.all_bind (Fiber.all_raising (Fiber.all_perform.mpr trivial)) fun _ => ?_
  refine Fiber.all_bind (Fiber.all_perform.mpr trivial) fun _ => ?_
  refine Fiber.all_bind (Fiber.all_perform.mpr trivial) fun _ => ?_
  exact Fiber.all_bind (Fiber.all_ofExcept _) fun _ => Fiber.all_ofExcept _

/-- Committing the locations writes no journal. -/
theorem quiet_commitLocations (l : Locations) :
    (commitLocations l).All Op.isQuiet := by
  unfold commitLocations
  refine Fiber.all_bind (Fiber.all_raising (Fiber.all_perform.mpr trivial)) fun _ => ?_
  refine Fiber.all_bind (Fiber.all_raising (Fiber.all_perform.mpr trivial)) fun _ => ?_
  exact Fiber.all_bind (Fiber.all_ofExcept _) fun _ =>
    Fiber.all_raising (Fiber.all_perform.mpr trivial)

/-- Loading the value of the base writes no journal. -/
theorem quiet_existingValue (base : Option Record) :
    (existingValue base).All Op.isQuiet := by
  cases base with
  | none => exact Fiber.all_throw _
  | some b => exact Fiber.all_raising (Fiber.all_perform.mpr trivial)

/-- Neither does choosing the value to start from. -/
theorem quiet_startingValue (args : Preparation) (base : Option Record) :
    (startingValue args base).All Op.isQuiet := by
  unfold startingValue
  cases args.operation with
  | publish =>
    dsimp only
    cases args.disk with
    | none => exact Fiber.all_throw _
    | some disk =>
      exact Fiber.all_bind (Fiber.all_raising (Fiber.all_perform.mpr trivial))
        fun _ => Fiber.all_pure _
  | _ => exact quiet_existingValue base

/-- Nor replacing its state. -/
theorem quiet_withState (args : Preparation) (value : Descriptor) :
    (withState args value).All Op.isQuiet := by
  unfold withState
  dsimp only
  cases args.state with
  | none => exact Fiber.all_pure _
  | some path =>
    exact Fiber.all_bind (Fiber.all_raising (Fiber.all_perform.mpr trivial))
      fun _ => Fiber.all_pure _

/-- Nor replacing its load profile. -/
theorem quiet_withProfile (args : Preparation) (value : Descriptor) :
    (withProfile args value).All Op.isQuiet := by
  unfold withProfile
  dsimp only
  cases args.profile with
  | none => exact Fiber.all_pure _
  | some path =>
    dsimp only
    generalize (if args.operation = .clearProfile ∨ args.clearProfile = true then
      ({ value with profile := none } : Descriptor) else value) = value'
    have himport : Fiber.All Op.isQuiet
        (do
          let infoHash ← raising (perform (.importFile path))
          return { value' with profile := some infoHash } : Act Descriptor) :=
      Fiber.all_bind (Fiber.all_raising (Fiber.all_perform.mpr trivial))
        fun _ => Fiber.all_pure _
    split
    · exact Fiber.all_bind (Fiber.all_raising (Fiber.all_perform.mpr trivial))
        fun _ => himport
    · exact himport

/-! ### `status`, `locations`, `transfer` -/

/-- `status` keeps the contract from every sensible root. -/
theorem sat_status (hs : root.Sensible config) :
    Sat (rootContract config .status) (Call.program config .status) (fun _ _ => True)
      (fun _ _ => True) root := by
  show Sat _ (current >>= fun _ => pure ()) _ _ root
  rw [sat_bind]
  exact sat_mono (sat_current hs) (fun _ _ _ => trivial) (fun _ _ _ => trivial)

/-- So does `locations`. -/
theorem sat_locations (hs : root.Sensible config) :
    Sat (rootContract config .locations) (Call.program config .locations) (fun _ _ => True)
      (fun _ _ => True) root := by
  refine sat_mono (sat_quiet ?_ hs) (fun _ _ _ => trivial) (fun _ _ _ => trivial)
  exact Fiber.all_mono (fun _ => Op.isQuiet.not_save)
    (Fiber.all_bind quiet_prepareLocations quiet_commitLocations)

/-- The journal that `transfer` works on stays sound, and so does the one in the file. -/
def Carries (config : Config) (j : Journal) (root : Root) : Prop :=
  root.Sensible config ∧ j.Sound config root.store

/-- A carried journal stays sound while the one in the file is kept. -/
theorem Carries.keeps {j : Journal} {root' : Root} (h : Carries config j root)
    (hs : root'.Sensible config) (hk : root.Keeps root') : Carries config j root' :=
  ⟨hs, h.2.grows hk.1.grows⟩

/-- Saving the journal with another phase or list of seedboxes. -/
theorem Carries.saved {j : Journal} (h : Carries config j root) (phase : Phase)
    (notified : List String) :
    Carries config { j with phase := phase, notified := notified }
      { root with journal := some { j with phase := phase, notified := notified } } := by
  refine ⟨?_, h.2⟩
  intro j' hj'
  obtain rfl := Option.some.inj hj'
  exact h.2

/-- After the offer the journal that it returns is carried. -/
theorem sat_offer {j : Journal} {node : Seedbox} (hcall : call ≠ .commit)
    (h : Carries config j root) :
    Sat (rootContract config call) (offer j node) (fun j' root' => Carries config j' root')
      (fun _ _ => True) root := by
  unfold offer
  rw [sat_bind]
  apply sat_keeps (.candidates node j.record) (fun h => h) h.1
  intro i root₁ admission _ _ hs₁ hk₁
  have h₁ := h.keeps hs₁ hk₁
  cases admission with
  | unreachable => exact h₁
  | interrupted =>
    dsimp only
    rw [sat_bind]
    refine sat_save (fun hc => absurd hc hcall) (show Journal.Sound _ _ _ from h₁.2) ?_
    exact h₁.saved .conflict j.notified
  | conflicting body =>
    dsimp only
    rw [sat_bind]
    refine sat_save (fun hc => absurd hc hcall) (show Journal.Sound _ _ _ from h₁.2) ?_
    cases body with
    | ok text => exact trivial
    | error e => exact trivial
  | status code =>
    dsimp only
    rw [sat_ite]
    refine ⟨fun _ => h₁, fun _ => ?_⟩
    rw [sat_ite]
    refine ⟨fun _ => trivial, fun _ => ?_⟩
    rw [sat_ite]
    refine ⟨fun _ => h₁, fun _ => ?_⟩
    rw [sat_bind]
    refine sat_save (fun hc => absurd hc hcall) (show Journal.Sound _ _ _ from h₁.2) ?_
    exact h₁.saved j.phase (j.notified ++ [node.name])

/-- Waiting for the copy keeps the contract, however many polls are left. -/
theorem sat_awaitCopy {j : Journal} (hcall : call ≠ .commit) (polls : Nat) (root : Root)
    (h : Carries config j root) :
    Sat (rootContract config call) (awaitCopy j polls) (fun _ _ => True) (fun _ _ => True)
      root := by
  induction polls generalizing root with
  | zero => exact trivial
  | succ polls ih =>
    unfold awaitCopy
    rw [sat_bind]
    apply sat_keeps .completeNode (fun h => h) h.1
    intro i root₁ node _ _ hs₁ hk₁
    have h₁ := h.keeps hs₁ hk₁
    cases node with
    | none => exact ih root₁ h₁
    | some name => exact sat_save (fun hc => absurd hc hcall) (show Journal.Sound _ _ _ from h₁.2) trivial

/-- `transfer` keeps the contract. -/
theorem sat_transfer (hs : root.Sensible config) :
    Sat (rootContract config .transfer) (transfer config) (fun _ _ => True) (fun _ _ => True)
      root := by
  have hcall : Call.transfer ≠ .commit := by intro h; cases h
  unfold transfer
  rw [sat_bind]
  apply sat_keeps .journal (fun h => h) hs
  intro i root₁ held _ hh hs₁ hk₁
  cases held with
  | none => exact trivial
  | some j =>
    have hj : root.journal = some j := by
      cases i with
      | done => exact (Prod.mk.inj (Option.some.inj hh)).2
      | _ => cases hh
    have h₁ : Carries config j root₁ := ⟨hs₁, (hs j hj).grows hk₁.1.grows⟩
    dsimp only
    rw [sat_bind]
    apply sat_ask
    apply sat_keeps (.descriptor j.record.infoHash) (fun h => h) hs₁
    intro i₂ root₂ answer₂ _ _ hs₂ hk₂
    have h₂ := h₁.keeps hs₂ hk₂
    refine ⟨?_, fun _ _ => trivial⟩
    intro value _
    rw [sat_bind]
    apply sat_ask
    apply sat_keeps (.seed j.record value) (fun h => h) hs₂
    intro i₃ root₃ answer₃ _ _ hs₃ hk₃
    have h₃ := h₂.keeps hs₃ hk₃
    refine ⟨?_, fun _ _ => trivial⟩
    intro _ _
    rw [sat_bind]
    refine sat_save (fun hc => absurd hc hcall) (show Journal.Sound _ _ _ from h₃.2) ?_
    rw [sat_bind]
    have hloop := sat_foldlM (c := rootContract config .transfer) (E := fun _ _ => True) offer
      (fun _ j' root' => Carries config j' root') config.nodes
      (fun _ _ _ _ _ _ hI => sat_offer hcall hI) _ _ (h₃.saved .transferring j.notified)
    refine sat_mono hloop ?_ (fun _ _ _ => trivial)
    intro j' root' h'
    rw [sat_bind, sat_ofExcept]
    refine ⟨fun _ _ => sat_awaitCopy hcall config.polls root' h', fun _ _ => trivial⟩

/-! ### `prepare` -/

/-- The base of the candidate being prepared was observed. -/
def Based (config : Config) (base : Option Record) (root : Root) : Prop :=
  root.Sensible config ∧ ∀ b, base = some b →
    ∃ o, root.store.observed config.signer.publicKey = some o ∧ b.sequence ≤ o.sequence

/-- The base of a candidate stays observed under whatever keeps the journal. -/
theorem Based.keeps {base : Option Record} {root' : Root} (h : Based config base root)
    (h' : root'.Sensible config ∧ root.Keeps root') : Based config base root' := by
  refine ⟨h'.1, ?_⟩
  intro b hb
  obtain ⟨o, ho, hle⟩ := h.2 b hb
  obtain ⟨o', ho', hle'⟩ := h'.2.1.grows _ o ho
  exact ⟨o', ho', hle.trans hle'⟩

/-- A quiet part of `prepare` keeps the base. -/
theorem sat_based {α : Type} {t : Act α} {base : Option Record}
    (ht : t.All fun op => ¬ op.isSave) (h : Based config base root) :
    Sat (rootContract config call) t (fun _ root' => Based config base root')
      (fun _ _ => True) root :=
  sat_mono (sat_quiet ht h.1) (fun _ _ h' => h.keeps h') (fun _ _ _ => trivial)

/-- A quiet program leaves the base of a candidate observed. -/
theorem sat_based_quiet {α : Type} {t : Act α} {base : Option Record} (ht : t.All Op.isQuiet)
    (h : Based config base root) :
    Sat (rootContract config call) t (fun _ root' => Based config base root')
      (fun _ _ => True) root :=
  sat_based (Fiber.all_mono (fun _ => Op.isQuiet.not_save) ht) h

/-- `maximum` answers the maximum of the store. -/
theorem handle_maximum {i : Answer} {root' : Root} {m : Nat}
    (h : Root.handle config .maximum i root = some (root', m)) :
    m = root.store.maximum config.signer.publicKey := by
  cases i with
  | done => exact (Prod.mk.inj (Option.some.inj h)).2.symm
  | _ => cases h

/-- The candidate is signed above everything observed, hence above its base. -/
theorem sat_signCandidate {base : Option Record} {value : Descriptor}
    (h : Based config base root) :
    Sat (rootContract config call) (signCandidate config value)
      (fun candidate root' => Based config base root' ∧
        ∀ b, base = some b → b.sequence < candidate.sequence)
      (fun _ _ => True) root := by
  unfold signCandidate
  rw [sat_bind]
  refine sat_mono (sat_based (Fiber.all_raising (Fiber.all_perform.mpr fun h => h)) h) ?_
    (fun _ _ _ => trivial)
  intro descriptorHash root₁ h₁
  rw [sat_bind]
  apply sat_keeps .maximum (fun h => h) h₁.1
  intro i root₂ maximum _ hh₂ hs₂ hk₂
  have hmax := handle_maximum hh₂
  have h₂ := h₁.keeps ⟨hs₂, hk₂⟩
  rw [sat_bind]
  refine sat_mono (sat_based (Fiber.all_perform.mpr fun h => h) h₂) ?_ (fun _ _ _ => trivial)
  intro now root₃ h₃
  rw [sat_bind, sat_ofExcept]
  refine ⟨?_, fun _ _ => trivial⟩
  intro seq hseq
  rw [sat_bind, sat_ofExcept]
  refine ⟨?_, fun _ _ => trivial⟩
  intro candidate hsign
  have hbase : ∀ b, base = some b → b.sequence < candidate.sequence := by
    intro b hb
    obtain ⟨o, ho, hle⟩ := h₁.2 b hb
    have hlt := lt_of_nextSequence hseq
    have hom := Store.observed_le_maximum ho
    rw [Record.sign_sequence hsign]
    omega
  rw [sat_bind]
  refine sat_mono (sat_based (Fiber.all_raising (Fiber.all_perform.mpr fun h => h)) h₃) ?_
    (fun _ _ _ => trivial)
  intro _ root₄ h₄
  rw [sat_bind]
  refine sat_mono (sat_based (Fiber.all_raising (Fiber.all_perform.mpr fun h => h)) h₄) ?_
    (fun _ _ _ => trivial)
  intro metadata root₅ h₅
  rw [sat_bind]
  refine sat_mono (sat_based (Fiber.all_raising (Fiber.all_perform.mpr fun h => h)) h₅) ?_
    (fun _ _ _ => trivial)
  intro _ root₆ h₆
  exact ⟨h₆, hbase⟩

/-- `prepare` keeps the contract. -/
theorem sat_prepare {args : Preparation} (hs : root.Sensible config) :
    Sat (rootContract config (.prepare args)) (prepare config args) (fun _ _ => True)
      (fun _ _ => True) root := by
  unfold prepare
  rw [sat_bind]
  refine sat_mono (sat_quiet (Fiber.all_raising (Fiber.all_perform.mpr fun h => h)) hs) ?_
    (fun _ _ _ => trivial)
  intro _ root₁ h₁
  rw [sat_bind]
  refine sat_mono (sat_quiet (Fiber.all_perform.mpr fun h => h) h₁.1) ?_ (fun _ _ _ => trivial)
  intro old root₂ h₂
  rw [sat_bind, sat_ofExcept]
  refine ⟨?_, fun _ _ => trivial⟩
  intro _ _
  rw [sat_bind]
  refine sat_mono (sat_current h₂.1) ?_ (fun _ _ _ => trivial)
  intro base root₃ hcur
  have h₃ : Based config base root₃ := ⟨hcur.sensible, fun b hb => (hcur.seen b hb).2⟩
  rw [sat_bind]
  refine sat_mono (sat_based_quiet (quiet_startingValue args base) h₃) ?_ (fun _ _ _ => trivial)
  intro value root₄ h₄
  rw [sat_bind]
  refine sat_mono (sat_based (Fiber.all_raising (Fiber.all_perform.mpr fun h => h)) h₄) ?_
    (fun _ _ _ => trivial)
  intro _ root₅ h₅
  rw [sat_bind]
  refine sat_mono (sat_based_quiet (quiet_withState args value) h₅) ?_ (fun _ _ _ => trivial)
  intro value root₆ h₆
  rw [sat_bind]
  refine sat_mono (sat_based_quiet (quiet_withProfile args value) h₆) ?_ (fun _ _ _ => trivial)
  intro value root₇ h₇
  rw [sat_bind]
  refine sat_mono (sat_signCandidate h₇) ?_ (fun _ _ _ => trivial)
  intro candidate root₈ h₈
  rw [sat_bind]
  refine sat_mono (sat_based_quiet quiet_prepareLocations h₈.1) ?_ (fun _ _ _ => trivial)
  intro locations root₉ h₉
  refine sat_save (fun hc => by cases hc) ?_ trivial
  intro b hb
  exact ⟨h₈.2 b hb, h₉.2 b hb⟩

/-! ## §4. `commit`. -/

/-- During a commit the journal in the file is the one the process holds, up to its phase. -/
structure Committing (config : Config) (j : Journal) (root : Root) : Prop where
  sensible : root.Sensible config
  sound : j.Sound config root.store
  held : ∃ phase, root.journal = some { j with phase := phase }

/-- A commit goes on with its journal after anything that keeps it. -/
theorem Committing.keeps {j : Journal} {root' : Root} (h : Committing config j root)
    (hs : root'.Sensible config) (hk : root.Keeps root') : Committing config j root' := by
  obtain ⟨phase, hphase⟩ := h.held
  exact ⟨hs, h.sound.grows hk.1.grows, phase, hk.2.trans hphase⟩

/-- Saving another phase leaves a commit with the same record and base. -/
theorem Committing.saved {j : Journal} (h : Committing config j root) (phase : Phase) :
    Committing config j { root with journal := some { j with phase := phase } } := by
  refine ⟨?_, h.sound, phase, rfl⟩
  intro j' hj'
  obtain rfl := Option.some.inj hj'
  exact h.sound

/-- A calm put of the locations raises no conflict. -/
theorem handle_putLocations {l : Locations} {i : Answer} {root' : Root} {e : Failure}
    (h : Root.handle config (.putLocations l) i root = some (root', .error e))
    (hcalm : Calm (.putLocations l) i root = true) : e.isConflict = false := by
  cases i with
  | putLocations answer =>
    obtain ⟨out, hout, heq⟩ := Option.map_eq_some_iff.mp h
    obtain ⟨-, rfl⟩ := Prod.mk.inj heq
    cases answer with
    | stored => cases Option.some.inj hout
    | superseded found => cases hcalm
    | failed e' =>
      simp only [PutAnswer.result] at hout
      split at hout
      · cases hout
      · rename_i hne
        obtain rfl := Except.error.inj (Option.some.inj hout)
        simpa using hne
  | _ => cases h

/-- Nor does a calm `set_locations`. -/
theorem handle_setLocations {l : Locations} {i : Answer} {root' : Root} {e : Failure}
    (h : Root.handle config (.setLocations l) i root = some (root', .error e))
    (hcalm : Calm (.setLocations l) i root = true) : e.isConflict = false := by
  cases i with
  | done =>
    have h' := Option.some.inj h
    obtain ⟨store, a, -, hrun⟩ | ⟨e', he', hrun⟩ :=
      root.transact_cases (Store.setLocations config.wire l)
    · rw [hrun] at h'
      cases (Prod.mk.inj h').2
    · rw [hrun] at h'
      obtain rfl := Except.error.inj (Prod.mk.inj h').2
      by_contra hconf
      obtain ⟨known, hknown, hsup⟩ := Store.setLocations_conflict he' (by simpa using hconf)
      exact of_decide_eq_true hcalm known hknown hsup
  | _ => cases h

/-- In a calm commit the locations record never raises a `Conflict`. -/
theorem sat_commitLocations {j : Journal} (h : Committing config j root) :
    Sat (rootContract config .commit) (commitLocations j.locations)
      (fun _ root' => Committing config j root')
      (fun e root' => Committing config j root' ∧ e.isConflict = false) root := by
  unfold commitLocations
  rw [sat_bind]
  apply sat_ask
  apply sat_keeps (.putLocations j.locations) (fun h => h) h.sensible
  intro i₁ root₁ answer hcalm₁ hh₁ hs₁ hk₁
  have h₁ := h.keeps hs₁ hk₁
  constructor
  swap
  · intro e he
    subst he
    exact ⟨h₁, handle_putLocations hh₁ (hcalm₁ rfl)⟩
  intro _ _
  rw [sat_bind]
  apply sat_ask
  apply sat_keeps .resolveLocations (fun h => h) h₁.sensible
  intro i₂ root₂ answer₂ hcalm₂ hh₂ hs₂ hk₂
  have h₂ := h₁.keeps hs₂ hk₂
  have hinput : i₂ = .locations answer₂ := by
    cases i₂ with
    | locations r => rw [(Prod.mk.inj (Option.some.inj hh₂)).2]
    | _ => cases hh₂
  subst hinput
  constructor
  swap
  · intro e he
    subst he
    exact ⟨h₂, by simpa [Calm] using hcalm₂ rfl⟩
  intro actual hactual
  -- the read-back returned the frozen record, so that the comparison passes
  obtain ⟨phase, hphase⟩ := h₁.held
  subst hactual
  have hsame : actual = some j.locations := 
    of_decide_eq_true (hcalm₂ rfl) { j with phase := phase } hphase
  rw [sat_bind, sat_ofExcept]
  constructor
  swap
  · intro e he
    exact absurd hsame (raiseIf_error he).1
  intro _ _
  apply sat_ask
  apply sat_keeps (.setLocations j.locations) (fun h => h) h₂.sensible
  intro i₃ root₃ answer₃ hcalm₃ hh₃ hs₃ hk₃
  have h₃ := h₂.keeps hs₃ hk₃
  refine ⟨fun _ _ => h₃, ?_⟩
  intro e he
  subst he
  exact ⟨h₃, handle_setLocations hh₃ (hcalm₃ rfl)⟩

/-- A superseding record is neither the candidate nor anything below it. -/
theorem displaced_of_supersedes {j : Journal} {found : Record} (hj : j.Sound config root.store)
    (hmem : found ∈ root.observed) (hsup : Supersedes found j.record) : root.Displaced j := by
  have hle : j.record.sequence ≤ found.sequence := by
    rcases hsup with hlt | ⟨heq, -⟩
    · exact Nat.le_of_lt hlt
    · exact Nat.le_of_eq heq
  refine ⟨found, hmem, ?_, ?_⟩
  · intro hbase
    have hlt := (hj found hbase.symm).1
    omega
  · intro hsame
    subst hsame
    rcases hsup with hlt | ⟨-, hne⟩
    · exact Nat.lt_irrefl _ hlt
    · exact hne rfl

/-- A put that raises a conflict has observed a record that supersedes the one put. -/
theorem handle_put {record : Record} {i : Answer} {root' : Root} {e : Failure}
    (h : Root.handle config (.put record) i root = some (root', .error e))
    (he : e.isConflict = true) : ∃ found ∈ root'.observed, Supersedes found record := by
  cases i with
  | put answer =>
    obtain ⟨out, hout, heq⟩ := Option.map_eq_some_iff.mp h
    obtain ⟨rfl, rfl⟩ := Prod.mk.inj heq
    cases answer with
    | stored => cases Option.some.inj hout
    | superseded found =>
      refine ⟨found, List.mem_append_right _ List.mem_cons_self, ?_⟩
      simp only [PutAnswer.result] at hout
      split at hout
      · assumption
      · cases hout
    | failed e' =>
      simp only [PutAnswer.result] at hout
      split at hout
      · cases hout
      · rename_i hne
        obtain rfl := Except.error.inj (Option.some.inj hout)
        exact absurd he hne
  | _ => cases h

/-- A commit still has its journal after both puts. -/
theorem sat_putBoth {j : Journal} (h : Committing config j root) :
    Sat (rootContract config .commit) (putBoth j) (fun _ root' => Committing config j root')
      (fun _ _ => True) root := by
  unfold putBoth
  rw [sat_tryCatch, sat_bind]
  refine sat_mono (sat_commitLocations h) ?_ ?_
  · intro _ root₁ h₁
    apply sat_ask
    apply sat_keeps (.put j.record) (fun h => h) h₁.sensible
    intro i root₂ answer _ hh₂ hs₂ hk₂
    have h₂ := h₁.keeps hs₂ hk₂
    refine ⟨fun _ _ => h₂, ?_⟩
    intro e he
    subst he
    rw [sat_ite]
    constructor
    · intro hconf
      obtain ⟨found, hmem, hsup⟩ := handle_put hh₂ hconf
      have hdisplaced := displaced_of_supersedes h₂.sound hmem hsup
      rw [sat_bind]
      exact sat_save (fun _ _ => hdisplaced) (show Journal.Sound _ _ _ from h₂.sound) trivial
    · intro _
      exact trivial
  · intro e root₁ hE
    rw [if_neg (by rw [hE.2]; exact Bool.false_ne_true)]
    exact trivial

/-- A record that is read back was observed. -/
theorem handle_resolve {i : Answer} {root' : Root} {readback : Record}
    (h : Root.handle config .resolve i root = some (root', .ok (some readback))) :
    i = .record (.ok (some readback)) ∧ readback ∈ root'.observed := by
  cases i with
  | record answer =>
    cases answer with
    | error e => cases (Prod.mk.inj (Option.some.inj h)).2
    | ok found =>
      unfold Root.handle at h
      dsimp only at h
      split at h
      · obtain ⟨rfl, hfound⟩ := Prod.mk.inj (Option.some.inj h)
        obtain rfl := Except.ok.inj hfound
        exact ⟨rfl, List.mem_append_right _ (by simp)⟩
      · cases h
  | _ => cases h

/-- Confirming the record that was put keeps the contract. -/
theorem sat_confirm {j : Journal} (h : Committing config j root) :
    Sat (rootContract config .commit) (confirm j) (fun _ _ => True) (fun _ _ => True) root := by
  unfold confirm
  rw [sat_bind]
  apply sat_ask
  apply sat_keeps .resolve (fun h => h) h.sensible
  intro i root₁ answer hcalm hh₁ hs₁ hk₁
  have h₁ := h.keeps hs₁ hk₁
  refine ⟨?_, fun _ _ => trivial⟩
  intro readback hr
  subst hr
  cases readback with
  | none => exact trivial
  | some readback =>
    obtain ⟨hinput, hmem⟩ := handle_resolve hh₁
    dsimp only
    rw [sat_ite]
    constructor
    · intro hne
      -- neither the candidate nor, in a calm commit, the base
      have hdisplaced : root₁.Displaced j := by
        refine ⟨readback, hmem, ?_, hne⟩
        intro hbase
        obtain ⟨phase, hphase⟩ := h.held
        rw [hinput] at hcalm
        exact of_decide_eq_true (hcalm rfl) _ hphase hbase.symm
      rw [sat_bind]
      exact sat_save (fun _ _ => hdisplaced) (show Journal.Sound _ _ _ from h₁.sound) trivial
    · intro _
      rw [sat_bind]
      refine sat_mono (sat_quiet (Fiber.all_raising (Fiber.all_perform.mpr fun h => h))
        h₁.sensible) ?_ (fun _ _ _ => trivial)
      intro _ root₂ h₂
      have h₂' := h₁.keeps h₂.1 h₂.2
      rw [sat_bind]
      refine sat_mono (sat_quiet (Fiber.all_raising (Fiber.all_perform.mpr fun h => h))
        h₂'.sensible) ?_ (fun _ _ _ => trivial)
      intro value root₃ h₃
      have h₃' := h₂'.keeps h₃.1 h₃.2
      rw [sat_bind]
      refine sat_mono (sat_quiet (Fiber.all_raising (Fiber.all_perform.mpr fun h => h))
        h₃'.sensible) ?_ (fun _ _ _ => trivial)
      intro _ root₄ h₄
      have h₄' := h₃'.keeps h₄.1 h₄.2
      exact sat_save (fun _ hp => by cases hp) (show Journal.Sound _ _ _ from h₄'.sound) trivial

/-- `commit` keeps the contract, under calm answers. -/
theorem sat_commit (hs : root.Sensible config) :
    Sat (rootContract config .commit) commit (fun _ _ => True) (fun _ _ => True) root := by
  unfold commit
  rw [sat_bind]
  apply sat_keeps .journal (fun h => h) hs
  intro i root₁ held _ hh hs₁ hk₁
  cases held with
  | none => exact trivial
  | some j =>
    have hj : root.journal = some j := by
      cases i with
      | done => exact (Prod.mk.inj (Option.some.inj hh)).2
      | _ => cases hh
    have h₁ : Committing config j root₁ :=
      ⟨hs₁, (hs j hj).grows hk₁.1.grows, j.phase, hk₁.2.trans hj⟩
    dsimp only
    rw [sat_bind]
    apply sat_keeps .completeNode (fun h => h) h₁.sensible
    intro i₂ root₂ node _ _ hs₂ hk₂
    have h₂ := h₁.keeps hs₂ hk₂
    rw [sat_bind, sat_ofExcept]
    refine ⟨?_, fun _ _ => trivial⟩
    intro _ _
    rw [sat_bind]
    refine sat_mono (sat_current h₂.sensible) ?_ (fun _ _ _ => trivial)
    intro now root₃ hcur
    have h₃ := h₂.keeps hcur.sensible hcur.keeps
    rw [sat_ite]
    constructor
    · intro hne
      have hdisplaced : root₃.Displaced j := by
        cases now with
        | none =>
          -- nothing was ever observed, so that there is no base: the check passed
          cases hbase : j.base with
          | none => exact absurd hbase.symm hne.1
          | some b =>
            obtain ⟨-, o, ho, -⟩ := h₂.sound b hbase
            rw [hcur.empty rfl] at ho
            cases ho
        | some r => exact ⟨r, (hcur.seen r rfl).1, hne.1, fun h => hne.2 (by rw [h])⟩
      rw [sat_bind]
      exact sat_save (fun _ _ => hdisplaced) (show Journal.Sound _ _ _ from h₃.sound) trivial
    · intro _
      rw [sat_bind]
      refine sat_save (fun _ hp => by cases hp) (show Journal.Sound _ _ _ from h₃.sound) ?_
      rw [sat_bind]
      refine sat_mono (sat_putBoth (h₃.saved .committing)) ?_ (fun _ _ _ => trivial)
      intro _ root₄ h₄
      exact sat_confirm h₄

end Calls

/-! ## §5. Runs. -/

/-- The processes of one root: one at a time, because of its lock file. -/
abbrev RootPool := Pool Unit Call Op Op.Ret Failure Unit Root

/-- A call starts, the running call takes one step, or its process is cut. -/
abbrev RootEvent := PoolEvent Unit Call Answer

/-- A call begins with nothing observed. -/
def beginCall (_ : Unit) (_ : Call) (root : Root) : Root := { root with observed := [] }

def RootPool.step (config : Config) : RootPool → RootEvent → Option RootPool :=
  Pool.step (fun _ call => call.program config) beginCall (fun _ _ => Root.handle config)

/-- A root that no process has used. -/
def RootPool.fresh : RootPool :=
  { shared := { store := Store.new, journal := none, observed := [] }
    tasks := fun _ => none }

/-- Every answer that a commit gets is calm. -/
def Calmly (p : RootPool) : RootEvent → Bool
  | .advance _ input =>
    match p.doing () with
    | some (.commit, some op) => Calm op input p.shared
    | _ => true
  | _ => true

def rootDiscipline (config : Config) :
    Discipline Unit Call Op Op.Ret Failure Unit Answer Root where
  contract _ call := rootContract config call
  inv := Root.Sensible config
  may _ _ _ := True
  returns _ _ _ _ := True
  throws _ _ _ _ := True

/-- **Every command keeps the contract**, from every sensible root. -/
theorem program_sat {config : Config} {call : Call} {root : Root} (hs : root.Sensible config) :
    Sat (rootContract config call) (call.program config) (fun _ _ => True) (fun _ _ => True)
      root := by
  cases call with
  | status => exact sat_status hs
  | prepare args => exact sat_prepare hs
  | transfer => exact sat_transfer hs
  | commit => exact sat_commit hs
  | locations => exact sat_locations hs

/-- The commands of a root follow the contract, and so their runs do. -/
theorem rootDiscipline_sound (config : Config) :
    (rootDiscipline config).Sound (fun _ call => call.program config) beginCall
      (fun _ _ => Root.handle config) where
  handled _ _ _ _ _ := rfl
  rely_refl _ _ _ _ := rfl
  rely_trans _ _ _ _ _ h h' := Eq.trans h h'
  others k _ k' _ _ _ hk := absurd (Subsingleton.elim k k') hk
  keeps _ _ _ _ _ h := h
  returns_stable _ _ _ _ _ _ _ := trivial
  throws_stable _ _ _ _ _ _ _ := trivial
  begins k _ _ hs _ := ⟨hs, fun k' _ hk => absurd (Subsingleton.elim k k') hk⟩
  program_sat _ _ _ hs _ := program_sat hs

/-- A calm event is one the discipline permits. -/
theorem permits_of_calmly {config : Config} {p : RootPool} {e : RootEvent}
    (h : Calmly p e = true) : (rootDiscipline config).Permits p e := by
  cases e with
  | start k call => exact trivial
  | drop k => exact trivial
  | advance k input =>
    intro call op next ht hcall
    have hdoing : p.doing () = some (.commit, some op) := by
      unfold Pool.doing
      rw [show p.tasks () = some (call, .call op next) from ht, hcall]
      rfl
    unfold Calmly at h
    rw [hdoing] at h
    exact h

/-- **A publication becomes a conflict only for a publication record.**  In every run of calls on
    one root, cut anywhere, whose commits get calm answers: when `commit` is about to write the
    phase `conflict`, a record different from the base and from the candidate was observed. -/
theorem conflict_only_observed (config : Config) (events : List RootEvent) (p : RootPool)
    (j : Journal)
    (hcalm : Throughout (RootPool.step config) (fun p e => Calmly p e = true) .fresh events)
    (hrun : run (RootPool.step config) .fresh events = some p)
    (hnext : p.doing () = some (.commit, some (.save j))) (hphase : j.phase = .conflict) :
    ∃ r ∈ p.shared.observed, some r ≠ j.base ∧ r ≠ j.record := by
  have hsound := rootDiscipline_sound config
  have hfresh : (rootDiscipline config).Holds RootPool.fresh := by
    constructor
    · intro j hj
      cases hj
    · intro k call t ht
      cases ht
  have hperm : Throughout (RootPool.step config) (rootDiscipline config).Permits .fresh events :=
    throughout_mono (fun _ _ h => permits_of_calmly h) hcalm
  have hp := pool_invariant hsound events hfresh hperm hrun
  exact hp.requires hsound hnext j rfl rfl hphase

/-! ### A root with one seedbox -/

/-- Every signature is good, and every origin is already normal. -/
def demoConfig : Config where
  wire := { check := fun _ _ _ => true, origins := fun origins => .ok origins }
  signer := { publicKey := List.replicate 32 0, sign := fun _ => List.replicate 64 0 }
  nodes := [⟨"n", "a"⟩]
  polls := 1

def demoDisk : Bytes := List.replicate 20 1

def demoDescriptor : Bytes := List.replicate 20 2

/-- `prepare` of a first publication, with a clock and the info hash of its descriptor. -/
def demoPrepare (now : Nat) (descriptor : Bytes) : List RootEvent :=
  [.start () (.prepare ⟨.publish, some "disk.my98", none, none, false⟩),
   .advance () .done, .advance () .done, .advance () (.records (.ok [])), .advance () .done,
   .advance () (.bytes (.ok demoDisk)), .advance () (.nothing (.ok ())),
   .advance () (.bytes (.ok descriptor)), .advance () .done, .advance () (.clock now),
   .advance () (.nothing (.ok ())), .advance () (.bytes (.ok [1])), .advance () .done,
   .advance () (.locations (.ok none)), .advance () .done, .advance () (.clock now),
   .advance () .done]

def demoLocations (seq : Nat) : Locations :=
  ⟨List.replicate 32 0, seq, ["a"], List.replicate 64 0⟩

/-- The `locations` command, at clock 5. -/
def demoPublishLocations : List RootEvent :=
  [.start () .locations, .advance () (.locations (.ok none)), .advance () .done,
   .advance () (.clock 5), .advance () (.putLocations .stored),
   .advance () (.locations (.ok (some (demoLocations 5)))), .advance () .done]

/-- `transfer`: the seedbox admits the candidate and has a complete copy. -/
def demoTransfer : List RootEvent :=
  [.start () .transfer, .advance () .done, .advance () (.value (.ok ⟨demoDisk, none, none⟩)),
   .advance () (.nothing (.ok ())), .advance () .done, .advance () (.admission (.status 202)),
   .advance () .done, .advance () (.node (some "n")), .advance () .done]

/-- `commit` up to its first put: no other publication is in sight. -/
def demoCommit : List RootEvent :=
  [.start () .commit, .advance () .done, .advance () (.node (some "n")),
   .advance () (.records (.ok [])), .advance () .done, .advance () .done]

/-- Another publication, which the put of the candidate finds. -/
def demoOther : Record := ⟨List.replicate 32 0, 9, List.replicate 20 3, List.replicate 64 0⟩

def demoDisplacedRun : List RootEvent :=
  demoPrepare 1 demoDescriptor ++ [.drop ()] ++ demoTransfer ++ demoCommit ++
    [.advance () (.putLocations .stored),
     .advance () (.locations (.ok (some (demoLocations 1)))), .advance () .done,
     .advance () (.put (.superseded demoOther))]

def demoStaleRun : List RootEvent :=
  demoPrepare 1 demoDescriptor ++ [.drop ()] ++ demoPublishLocations ++ demoTransfer ++ demoCommit ++
    [.advance () (.putLocations (.superseded (demoLocations 5)))]

/-- The journal that the demo prepares, in a given phase. -/
def demoJournal (phase : Phase) : Journal where
  record := ⟨List.replicate 32 0, 1, demoDescriptor, List.replicate 64 0⟩
  locations := demoLocations 1
  base := none
  phase := phase
  notified := ["n"]

/-- A calm run in which the put finds another publication. -/
theorem demoDisplaced_observed :
    ∃ p : RootPool, run (RootPool.step demoConfig) .fresh demoDisplacedRun = some p ∧
      ∃ r ∈ p.shared.observed, some r ≠ (demoJournal .conflict).base ∧
        r ≠ (demoJournal .conflict).record := by
  have hrun : run (RootPool.step demoConfig) .fresh demoDisplacedRun = some _ :=
    run_getD (by decide +kernel)
  exact ⟨_, hrun, conflict_only_observed demoConfig demoDisplacedRun _ (demoJournal .conflict)
    (by decide +kernel) hrun (by decide +kernel) rfl⟩

/-- **The documented `locations` command turns an untouched candidate into a conflict.**
    No publication record at all was observed. -/
theorem stale_locations_conflict :
    ∃ p : RootPool, run (RootPool.step demoConfig) .fresh demoStaleRun = some p ∧
      p.doing () = some (.commit, some (.save (demoJournal .conflict))) ∧
      ¬ ∃ r ∈ p.shared.observed, some r ≠ (demoJournal .conflict).base ∧
        r ≠ (demoJournal .conflict).record := by
  refine ⟨_, run_getD (by decide +kernel), ?_, ?_⟩
  · decide +kernel
  · decide +kernel

end My98.Torrent
