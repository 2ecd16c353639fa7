/-
  My98.Web.Equivocation — which conflicts a lookup reports, and which it should not.

  An owner who signs two different records of one sequence equivocates.  `resolveRecord` looks
  for that in the map of its observations AND in its final pass; `Told` is what the two find
  together, `Honest` that they find nothing else.

    • `equivocation_reported` — every contradiction among the cached record and the parsed ones
      ends the lookup with `PUBLICATION_CONFLICT`, or the caller cancelled it, PROVIDED that no
      record is skipped after the deadline that contradicts one whose observation failed;
    • `no_false_conflict`     — a lookup that ends with `PUBLICATION_CONFLICT` has seen one,
      PROVIDED that the store is not ahead of every answer it kept when it writes the last time.

  `hidden_equivocation` and `stale_conflict` are the runs that break the two conditions.
-/
import Mathlib.Algebra.Order.Ring.Nat
import Mathlib.Tactic.Common
import My98.Web.HighWater

namespace My98.Web.Records

open My98.Lib

/-! ## §1. What a lookup reports. -/

/-- Rejected with a conflict, or with the caller's own cancellation. -/
def Reported : Outcome → Prop
  | .cancelled => True
  | .rejected e => e.code = "PUBLICATION_CONFLICT"
  | .returned _ => False

structure Told (l : Lookup) : Prop where
  covered : ∀ a ∈ l.failed, ∀ b ∈ l.skipped, ¬Conflicting a b
  storing : ∀ b, l.phase = .storing b → ¬Clash (l.best.toList ++ l.parsed)
  ended : ∀ o, l.phase = .ended o → Clash (l.best.toList ++ l.parsed) → Reported o

section Told

variable {c : Checks} {db db' : Database} {l l' : Lookup} {m : Move}

theorem fetched_dropped (l : Lookup) (j : Nat) (answer : Answer) :
    (l.fetched c j answer).failed = l.failed ∧ (l.fetched c j answer).skipped = l.skipped := by
  cases answer with
  | absent => exact ⟨rfl, rfl⟩
  | failed => exact ⟨rfl, rfl⟩
  | value v =>
    simp only [Lookup.fetched]
    split
    · exact ⟨rfl, rfl⟩
    · split <;> exact ⟨rfl, rfl⟩

/-- How records get out of the sight of the final pass, or of the map. -/
theorem Took.dropped (h : Took c db l m db' l') :
    (l'.failed = l.failed ∧ l'.skipped = l.skipped) ∨
    (l.active ≠ none ∧ ∃ r, l'.failed = l.failed ++ [r] ∧ l'.skipped = l.skipped) ∨
    (∃ j rest r, m = .observe ∧ l.aborted = true ∧ l.observations = j :: rest ∧
      l.slots j = .queued r ∧ l'.failed = l.failed ∧ l'.skipped = l.skipped ++ [r]) ∨
    l'.failed = [] := by
  cases h with
  | opening fault hp =>
    right; right; right
    rcases opening_cases c db l fault with ⟨e, -, h⟩ | h | ⟨best, h⟩
    · rw [h]
      rfl
    · rw [h]
      rfl
    · rw [h]
      rfl
  | fetched j answer hp hj hslot => exact .inl (fetched_dropped l j answer)
  | observe j rest r hp hidle hfirst hslot =>
    unfold Lookup.observe
    split
    next habort => exact .inr (.inr (.inl ⟨j, rest, r, rfl, habort, hfirst, hslot, rfl, rfl⟩))
    · left
      split
      · exact ⟨rfl, rfl⟩
      · split <;> exact ⟨rfl, rfl⟩
  | read j r fault hp hactive hslot =>
    unfold Lookup.read
    split
    · exact .inr (.inl ⟨by simp [hactive], r, rfl, rfl⟩)
    · exact .inl ⟨rfl, rfl⟩
  | store j r fault hp hactive hslot =>
    unfold Lookup.store
    split
    · exact .inr (.inl ⟨by simp [hactive], r, rfl, rfl⟩)
    · unfold Lookup.wrote
      split
      · exact .inr (.inl ⟨by simp [hactive], r, rfl, rfl⟩)
      · exact .inl ⟨rfl, rfl⟩
  | throws j r hp hactive hslot => exact .inr (.inl ⟨by simp [hactive], r, rfl, rfl⟩)
  | settle hp hall =>
    left
    rcases settle_cases l with ⟨-, h⟩ | ⟨-, h⟩ | ⟨-, -, ⟨b, -, h⟩ | h | h⟩ <;>
      rw [h] <;> exact ⟨rfl, rfl⟩
  | finish best fault hp =>
    left
    unfold Lookup.finish
    split <;> exact ⟨rfl, rfl⟩
  | _ => exact .inl ⟨rfl, rfl⟩

/-- Once all have settled, a parsed record is before the final pass or its observation failed. -/
theorem Tracks.accounted (h : Tracks l) (hall : l.responses.all Slot.settled = true)
    {r : WebRecord} (hr : r ∈ l.best.toList ++ l.parsed) : r ∈ l.kept ∨ r ∈ l.failed := by
  rcases List.mem_append.mp hr with hbest | hparsed
  · exact .inl (List.mem_append_left _ hbest)
  · rcases h.held r hparsed with ⟨j, hj⟩ | ⟨j, hj⟩ | hf
    · -- A queued answer has not settled.
      have hlt := h.range j (by simp [hj])
      have := List.all_eq_true.mp hall (l.slots j)
        (List.mem_map.mpr ⟨j, List.mem_range.mpr hlt, rfl⟩)
      rw [hj] at this
      cases this
    · exact .inl (mem_kept.mpr (.inr ⟨j, h.range j (by simp [hj]), hj⟩))
    · exact .inr hf

theorem Tracks.kept_seen (h : Tracks l) {r : WebRecord} (hr : r ∈ l.kept) :
    r ∈ l.looked ∨ r ∈ l.skipped ∨ l.onRecord = false := by
  rcases mem_kept.mp hr with hbest | ⟨j, -, hj⟩
  · exact .inl (h.best r hbest).1
  · exact h.kept j r hj

/-- A failed observation contradicts nothing that was kept. -/
theorem Tracks.failed_apart (h : Tracks l) (hcalm : l.conflict = false)
    (hcovered : ∀ a ∈ l.failed, ∀ b ∈ l.skipped, ¬Conflicting a b) {a b : WebRecord}
    (ha : a ∈ l.failed) (hb : b ∈ l.kept ∨ b ∈ l.failed) : ¬Conflicting a b := by
  intro hab
  have hmap := (h.map hcalm).calm
  obtain ⟨halooked, hon⟩ := h.failed a ha
  have hblooked : b ∉ l.looked := fun hb' => hmap ⟨a, halooked, b, hb', hab⟩
  rcases hb with hkept | hfailed
  · rcases h.kept_seen hkept with hl | hs | hoff
    · exact hblooked hl
    · exact hcovered a ha b hs hab
    · rw [hon] at hoff
      cases hoff
  · exact hblooked (h.failed b hfailed).1

/-- **The map and the final pass cover each other.** -/
theorem Tracks.no_clash (h : Tracks l) (hall : l.responses.all Slot.settled = true)
    (hcalm : l.conflict = false) (hkept : ¬Clash l.kept)
    (hcovered : ∀ a ∈ l.failed, ∀ b ∈ l.skipped, ¬Conflicting a b) :
    ¬Clash (l.best.toList ++ l.parsed) := by
  rintro ⟨a, ha, b, hb, hab⟩
  have ha := h.accounted hall ha
  have hb := h.accounted hall hb
  rcases ha with ha | ha
  · rcases hb with hb | hb
    · exact hkept ⟨a, ha, b, hb, hab⟩
    · exact h.failed_apart hcalm hcovered hb (.inl ha) hab.symm
  · exact h.failed_apart hcalm hcovered ha hb hab

theorem Told.of_phase (hcovered : ∀ a ∈ l.failed, ∀ b ∈ l.skipped, ¬Conflicting a b)
    (hp : l.phase = .opening ∨ l.phase = .waiting) : Told l where
  covered := hcovered
  storing := by
    intro b hb
    rcases hp with hp | hp <;> simp [hp] at hb
  ended := by
    intro o ho
    rcases hp with hp | hp <;> simp [hp] at ho

theorem Told.closed (hcovered : ∀ a ∈ l.failed, ∀ b ∈ l.skipped, ¬Conflicting a b) {o : Outcome}
    (hp : l.phase = .ended o) (ho : Clash (l.best.toList ++ l.parsed) → Reported o) : Told l where
  covered := hcovered
  storing := by
    intro b hb
    simp [hp] at hb
  ended := by
    intro o' ho' hclash
    obtain rfl : o = o' := by simpa [hp] using ho'
    exact ho hclash

theorem not_clash_nil : ¬Clash [] := by
  rintro ⟨a, ha, -⟩
  cases ha

theorem Told.opening (l : Lookup) (fault : Option Fault) : Told (l.opening c db fault) := by
  have hnone : ∀ a ∈ ([] : List WebRecord), ∀ b ∈ ([] : List WebRecord), ¬Conflicting a b := by
    simp
  rcases opening_cases c db l fault with ⟨e, -, h⟩ | h | ⟨best, h⟩
  · rw [h]
    exact .closed hnone rfl fun hclash => absurd hclash not_clash_nil
  · rw [h]
    exact .closed hnone rfl fun hclash => absurd hclash not_clash_nil
  · rw [h]
    exact .of_phase hnone (.inr rfl)

theorem Told.settle (h : Told l) (ht : Tracks l) (hall : l.responses.all Slot.settled = true) :
    Told l.settle := by
  rcases settle_cases l with ⟨-, hs⟩ | ⟨-, hs⟩ | ⟨hcalm, hkept, hs⟩
  · rw [hs]
    exact .closed h.covered rfl fun _ => trivial
  · rw [hs]
    exact .closed h.covered rfl fun _ => rfl
  · have hclash := ht.no_clash hall hcalm hkept h.covered
    rcases hs with ⟨b, -, hs⟩ | hs | hs
    · rw [hs]
      exact { covered := h.covered
              storing := fun _ _ => hclash
              ended := fun _ _ hc => absurd hc hclash }
    · rw [hs]
      exact .closed h.covered rfl fun hc => absurd hc hclash
    · rw [hs]
      exact .closed h.covered rfl fun hc => absurd hc hclash

theorem finish_fields (l : Lookup) (b : WebRecord) (fault : Option Fault) :
    (l.finish c db b fault).2.best = l.best ∧ (l.finish c db b fault).2.parsed = l.parsed ∧
      (l.finish c db b fault).2.key = l.key ∧
      (l.finish c db b fault).2.durables =
        l.durables ++ (db.durable c l.locations l.key).toList := by
  unfold Lookup.finish
  split <;> exact ⟨rfl, rfl, rfl, rfl⟩

/-- What is skipped after the deadline contradicts nothing whose observation failed. -/
def Lookup.Covers (l : Lookup) : Move → Prop
  | .observe => l.aborted = true → ∀ j rest r, l.observations = j :: rest →
      l.slots j = .queued r → ∀ a ∈ l.failed, ¬Conflicting a r
  | _ => True

theorem Told.covers (h : Told l) (ht : Tracks l) (hcond : l.Covers m)
    (htook : Took c db l m db' l') : ∀ a ∈ l'.failed, ∀ b ∈ l'.skipped, ¬Conflicting a b := by
  rcases htook.dropped with ⟨hf, hs⟩ | ⟨hactive, r, hf, hs⟩ |
    ⟨j, rest, r, rfl, habort, hfirst, hslot, hf, hs⟩ | hf
  · rw [hf, hs]
    exact h.covered
  · -- An observation fails while it runs, and then nothing has been skipped yet.
    intro a _ b hb
    rw [hs] at hb
    exact absurd (ht.skipped b hb).2 hactive
  · rw [hf, hs]
    intro a ha b hb
    rcases List.mem_append.mp hb with hold | hnew
    · exact h.covered a ha b hold
    · rw [List.mem_singleton.mp hnew]
      exact hcond habort j rest r hfirst hslot a ha
  · intro a ha
    rw [hf] at ha
    cases ha

theorem Told.step (h : Told l) (ht : Tracks l) (hcond : l.Covers m)
    (hm : l.step c db m = some (db', l')) : Told l' := by
  have htook := step_took hm
  have hcovered := h.covers ht hcond htook
  rcases htook.phase with ⟨fault, rfl⟩ | ⟨hall, rfl⟩ | ⟨b, fault, -, hb, rfl⟩ | ⟨b, hb, rfl⟩ | hp | hp
  · exact .opening l fault
  · exact h.settle ht hall
  · obtain ⟨hbest, hparsed, -, -⟩ := finish_fields (c := c) l b fault
    obtain ⟨outcome, hover, -⟩ := finish_cases c db l b fault
    refine .closed hcovered hover fun hclash => ?_
    rw [hbest, hparsed] at hclash
    exact absurd hclash (h.storing b hb)
  · exact ⟨h.covered, h.storing, h.ended⟩
  · exact .of_phase hcovered (.inl hp)
  · exact .of_phase hcovered (.inr hp)

end Told

/-! ## §2. Equivocation is reported. -/

namespace Browser

variable {c : Checks} {s s' : Browser} {e : Event}

/-- The condition on a step of the browser. -/
def Covers (s : Browser) : Event → Prop
  | .move i m => ∀ l, s.lookups i = some l → l.Covers m
  | _ => True

theorem told_step (hsafe : Safe c s) (htold : ∀ i l, s.lookups i = some l → Told l)
    (hcond : s.Covers e) (hstep : s.step c e = some s') :
    ∀ i l, s'.lookups i = some l → Told l := by
  apply step_each (P := fun _ l => Told l) ?_ (fun _ h => h) ?_ htold hstep
  · intro db key locations onRecord apis
    exact .of_phase (by simp [Lookup.start]) (.inl rfl)
  · intro i m l l' he hl ht hm
    subst he
    exact ht.step (hsafe.each i l hl).tracks (hcond l hl) hm

/-- **Equivocation is reported**, in every run in which no record is skipped after the deadline
    that contradicts one whose observation failed. -/
theorem equivocation_reported (c : Checks) (events : List Event) (s : Browser)
    (hcond : Throughout (Browser.step c) Covers .init events)
    (hrun : My98.Lib.run (Browser.step c) .init events = some s) :
    ∀ i l o, s.lookups i = some l → l.phase = .ended o → Clash (l.best.toList ++ l.parsed) →
      Reported o := by
  have hstep : ∀ t e t', (Safe c t ∧ ∀ i l, t.lookups i = some l → Told l) → Covers t e →
      t.step c e = some t' → Safe c t' ∧ ∀ i l, t'.lookups i = some l → Told l := by
    intro t e t' h hc hs
    exact ⟨h.1.step hs, told_step h.1 h.2 hc hs⟩
  have hinit : Safe c init ∧ ∀ i l, init.lookups i = some l → Told l :=
    ⟨.init c, fun i l h => by cases h⟩
  have hend := run_invariant hstep events init s hinit hcond hrun
  intro i l o hl ho hclash
  exact (hend.2 i l hl).ended o ho hclash

end Browser

/-- Two replicas, no callback. -/
def plainEvents (key : String) (a b : WebRecord) : List Browser.Event :=
  [.lookup 0 key false false 2, .move 0 (.open none), .move 0 (.fetched 0 (.value a.asJson)),
    .move 0 (.fetched 1 (.value b.asJson)), .move 0 .settle]

/-- Two replicas with a callback: the observation of the first meets a storage error after the
    deadline, and that of the second is skipped. -/
def hiddenEvents (key : String) (a b : WebRecord) : List Browser.Event :=
  [.lookup 0 key false true 2, .move 0 (.open none), .move 0 (.fetched 0 (.value a.asJson)),
    .move 0 (.fetched 1 (.value b.asJson)), .move 0 .observe, .move 0 .timeout,
    .move 0 (.read (some (.exception "UnknownError"))), .move 0 .observe, .move 0 .settle,
    .move 0 (.finish none)]

section Runs

variable {c : Checks} {key : String} {k : Bytes} {a b : WebRecord}

theorem plain_run (hkey : unhex key 32 = some k) (ha : Verified c false key a)
    (hb : Verified c false key b) (hab : Conflicting a b) :
    ∃ s l, run (Browser.step c) .init (plainEvents key a b) = some s ∧ s.lookups 0 = some l ∧
      l.phase = .ended (.rejected conflictingSources) ∧ l.best.toList ++ l.parsed = [a, b] := by
  have ha := ha.accepted
  have hb := hb.accepted
  have hseq := hab.1
  have hne := hab.2
  simp [plainEvents, run, Browser.step, Browser.init, Lookup.step, Lookup.start, Lookup.opening,
    cachedRecord, hkey, Database.get, Lookup.opened, Lookup.blank, Lookup.await, Lookup.fetched,
    ha, hb, Lookup.setSlot, clashes, seenOf, mark, Lookup.settle, Lookup.responses, List.range,
    List.range.loop, Slot.settled, Slot.record?, finalPass, hseq, hne, Lookup.ended]

theorem hidden_run (hkey : unhex key 32 = some k) (ha : Verified c false key a)
    (hb : Verified c false key b) :
    ∃ s l, run (Browser.step c) .init (hiddenEvents key a b) = some s ∧ s.lookups 0 = some l ∧
      l.phase = .ended (.returned (some b)) ∧ l.best.toList ++ l.parsed = [a, b] := by
  have ha := ha.accepted
  have hb := hb.accepted
  simp [hiddenEvents, run, Browser.step, Browser.init, Lookup.step, Lookup.start, Lookup.opening,
    cachedRecord, hkey, Database.get, Lookup.opened, Lookup.blank, Lookup.await, Lookup.fetched,
    ha, hb, Lookup.setSlot, Lookup.observe, Lookup.returns, Lookup.throws, Lookup.work,
    Lookup.read, clashes, seenOf, mark, newest, Lookup.settle, Lookup.responses, List.range,
    List.range.loop, Slot.settled, List.filterMap_cons, Slot.record?, finalPass, Lookup.finish,
    observeRecord, transact, compareRecords, committed, bind, Except.bind, pure, Except.pure,
    Lookup.ended]

end Runs

/-- `first` and `fork` from two replicas. -/
theorem demoFork_reported :
    ∃ s l o, run (Browser.step demoChecks) .init (plainEvents (hex demoKey) demoFirst demoFork)
      = some s ∧ s.lookups 0 = some l ∧ l.phase = .ended o ∧ Reported o := by
  obtain ⟨s, l, hrun, hl, hphase, hparsed⟩ :=
    plain_run demoKey_valid demoFirst_verified demoFork_verified demo_conflicting
  have hclash : Clash (l.best.toList ++ l.parsed) := by
    rw [hparsed]
    exact ⟨demoFirst, by simp, demoFork, by simp, demo_conflicting⟩
  have hcond : Throughout (Browser.step demoChecks) Browser.Covers .init
      (plainEvents (hex demoKey) demoFirst demoFork) :=
    throughout_of_mem (by simp [plainEvents, Browser.Covers, Lookup.Covers]) _
  exact ⟨s, l, _, hrun, hl, hphase,
    Browser.equivocation_reported demoChecks _ s hcond hrun 0 l _ hl hphase hclash⟩

/-- **A hidden equivocation**: the lookup returns `fork` although it has parsed `first`. -/
theorem hidden_equivocation :
    ¬∀ (c : Checks) (events : List Browser.Event) (s : Browser),
      run (Browser.step c) .init events = some s →
      ∀ i l o, s.lookups i = some l → l.phase = .ended o → Clash (l.best.toList ++ l.parsed) →
        Reported o := by
  intro h
  obtain ⟨s, l, hrun, hl, hphase, hparsed⟩ :=
    hidden_run demoKey_valid demoFirst_verified demoFork_verified
  have hclash : Clash (l.best.toList ++ l.parsed) := by
    rw [hparsed]
    exact ⟨demoFirst, by simp, demoFork, by simp, demo_conflicting⟩
  exact h demoChecks _ s hrun 0 l _ hl hphase hclash

/-! ## §3. Nothing else is. -/

/-- A lookup that rejected has seen a conflict among the durable records it read and the answers
    it parsed, or failed for want of a source, of storage or of a key. -/
def Honest (l : Lookup) : Prop :=
  ∀ e, l.phase = .ended (.rejected e) → Clash (l.durables ++ l.parsed) ∨
    e.code ≠ "PUBLICATION_CONFLICT" ∧ (e = noSource ∨ l.faulted = true ∨ unhex l.key 32 = none)

section Honest

variable {c : Checks} {db db' : Database} {l l' : Lookup} {m : Move}

theorem Honest.of_phase (h : ∀ e, l.phase ≠ .ended (.rejected e)) : Honest l :=
  fun e he => absurd he (h e)

theorem Honest.opening (hgood : Good c db) (l : Lookup) (fault : Option Fault) :
    Honest (l.opening c db fault) := by
  rcases opening_cases c db l fault with ⟨e, hread, h⟩ | h | ⟨best, h⟩
  · rw [h]
    intro e' he'
    obtain rfl : e = e' := by simpa using he'
    right
    obtain hok | ⟨f, rfl, herr⟩ | ⟨hkey, herr⟩ := cachedRecord_spec hgood l.locations l.key fault
    · rw [hread] at hok
      cases hok
    · rw [hread] at herr
      obtain rfl := Except.error.inj herr
      exact ⟨f.code_ne, .inr (.inl rfl)⟩
    · rw [hread] at herr
      obtain rfl := Except.error.inj herr
      exact ⟨by decide, .inr (.inr hkey)⟩
  · rw [h]
    exact .of_phase (by simp [Lookup.ended])
  · rw [h]
    exact .of_phase (by simp [Lookup.opened])

/-- What was cached is durable, what was kept was parsed. -/
theorem Tracks.sources (h : Tracks l) {r : WebRecord} (hr : r ∈ l.best.toList ++ l.parsed) :
    r ∈ l.durables ++ l.parsed := by
  rcases List.mem_append.mp hr with hbest | hparsed
  · exact List.mem_append_left _ (h.best r (by simpa using hbest)).2
  · exact List.mem_append_right _ hparsed

theorem Tracks.kept_sources (h : Tracks l) {r : WebRecord} (hr : r ∈ l.kept) :
    r ∈ l.best.toList ++ l.parsed := by
  rcases mem_kept.mp hr with hbest | ⟨j, -, hj⟩
  · exact List.mem_append_left _ (by simpa using hbest)
  · exact List.mem_append_right _ (h.parsed j r (.inr hj))

theorem Honest.settle (h : Tracks l) : Honest l.settle := by
  rcases settle_cases l with ⟨-, hs⟩ | ⟨hclash, hs⟩ | ⟨-, -, ⟨b, -, hs⟩ | hs | hs⟩
  · rw [hs]
    exact .of_phase (by simp [Lookup.ended])
  · rw [hs]
    intro e _
    left
    rcases hclash with hconflict | hkept
    · exact (h.clash hconflict).mono fun r hr => h.sources (h.looked r hr)
    · exact hkept.mono fun r hr => h.sources (h.kept_sources hr)
  · rw [hs]
    exact .of_phase (by simp)
  · rw [hs]
    exact .of_phase (by simp [Lookup.ended])
  · rw [hs]
    intro e he
    obtain rfl : noSource = e := by simpa [Lookup.ended] using he
    exact .inr ⟨by decide, .inl rfl⟩

/-- When it writes the last time, the store is not ahead of every record it kept. -/
def Lookup.Current (c : Checks) (db : Database) (l : Lookup) : Move → Prop
  | .finish _ => ∀ d, db.durable c l.locations l.key = some d →
      ∃ r ∈ l.kept, d.sequence ≤ r.sequence
  | _ => True

/-- The last transaction finds a conflict only where there is one. -/
theorem Honest.finish (hgood : Good c db) (hs : Sound c db l) {b : WebRecord}
    {fault : Option Fault} (hb : l.phase = .storing b) (hcond : l.Current c db (.finish fault)) :
    Honest (l.finish c db b fault).2 := by
  have hnew := hs.ready.newest b hb
  have hmem := hs.tracks.kept_sources (hnew.mem b rfl)
  have hv : Verified c l.locations l.key b := by
    rcases List.mem_append.mp hmem with hbest | hparsed
    · exact hs.calls.best b (by simpa using hbest)
    · exact hs.calls.parsed b hparsed
  have hout := observeRecord_record hgood hv fault
  unfold Lookup.finish
  generalize observeRecord c db l.locations b.asJson l.key fault = out at hout
  cases hout with
  | faulted f hf =>
    intro e he
    obtain rfl : f.error = e := by simpa [Lookup.ended] using he
    rw [hf]
    exact .inr ⟨f.code_ne, .inr (.inl rfl)⟩
  | conflicting d m hd hbad =>
    intro e _
    left
    -- The store is not ahead, so it holds another record of the same sequence.
    obtain ⟨r, hr, hle⟩ := hcond d hd
    obtain ⟨b', hb', hle'⟩ := hnew.bound r hr
    obtain rfl := Option.some.inj hb'
    rcases hbad with hlt | hconflict
    · omega
    · refine ⟨d, ?_, b, ?_, hconflict⟩
      · simp [hd]
      · have := hs.tracks.sources hmem
        simp only [List.mem_append] at this ⊢
        tauto
  | known d hd hseq hcontents => exact .of_phase (by simp [Lookup.ended])
  | stored hd => exact .of_phase (by simp [Lookup.ended])

theorem Honest.step (hgood : Good c db) (hs : Sound c db l) (hcond : l.Current c db m)
    (hm : l.step c db m = some (db', l')) : Honest l' := by
  have htook := step_took hm
  rcases htook.phase with ⟨fault, rfl⟩ | ⟨hall, rfl⟩ | ⟨b, fault, rfl, hb, rfl⟩ | ⟨b, hb, rfl⟩ | hp |
    hp
  · exact .opening hgood l fault
  · exact .settle hs.tracks
  · exact .finish hgood hs hb hcond
  · exact .of_phase (by simp [hb])
  · exact .of_phase (by simp [hp])
  · exact .of_phase (by simp [hp])

end Honest

namespace Browser

variable {c : Checks} {s s' : Browser} {e : Event}

/-- The condition on a step of the browser. -/
def Current (c : Checks) (s : Browser) : Event → Prop
  | .move i m => ∀ l, s.lookups i = some l → l.Current c s.db m
  | _ => True

end Browser

/-- While a replica answers, another tab stores something newer. -/
def staleEvents (key : String) (a b : WebRecord) : List Browser.Event :=
  [.lookup 0 key false false 1, .move 0 (.open none), .observe false b.asJson key none,
    .move 0 (.fetched 0 (.value a.asJson)), .move 0 .settle, .move 0 (.finish none)]

theorem stale_run {c : Checks} {key : String} {k : Bytes} {a b : WebRecord}
    (hkey : unhex key 32 = some k) (ha : Verified c false key a) (hb : Verified c false key b)
    (hlt : a.sequence < b.sequence) :
    ∃ s l m, run (Browser.step c) .init (staleEvents key a b) = some s ∧ s.lookups 0 = some l ∧
      l.phase = .ended (.rejected (conflict m)) ∧ l.durables ++ l.parsed = [b, a] := by
  have hpk : b.publicKey = key := hb.publicKey
  have hpk' : a.publicKey = key := ha.publicKey
  have ha := ha.accepted
  have hb := hb.accepted
  simp [staleEvents, run, Browser.step, Browser.init, Lookup.step, Lookup.start, Lookup.opening,
    cachedRecord, hkey, Database.get, Database.put, Database.durable, Lookup.opened, Lookup.blank,
    Lookup.await, Lookup.fetched, ha, hb, hpk, hpk', hlt, Lookup.setSlot, clashes, seenOf, newest,
    Lookup.settle, Lookup.responses, List.range, List.range.loop, Slot.settled, Slot.record?,
    finalPass, Lookup.finish, observeRecord, transact, compareRecords, committed, bind,
    Except.bind, pure, Except.pure, Except.toOption, Lookup.ended]

end My98.Web.Records
