/-
  My98.Torrent.Sequences — a publisher never signs two publications with one sequence number.

  A sequence is fresh when it is above everything the root has stored; but candidates are
  pruned, the clock may go back, and a process may be cut between signing, storing, journalling
  and sending.  The LEDGER is a root with its history: every row its tables ever had, every
  candidate it signed together with what was stored at that moment, and every candidate it
  stored itself.

  A record is SENT from the moment a process issues the operation that offers it to a seedbox or
  puts it into the DHT, whatever comes back and even if nothing does.

    • `handle_tables`    — no operation lowers `maximum`;
    • `Kept`             — what is journalled was stored, and stored candidates only go up;
    • `sequence_unique`  — of two records ever sent, the same sequence means the same record.
-/
import My98.Torrent.Resume
import My98.Torrent.Tables

namespace My98.Torrent.Sequences

open My98.Lib My98.Torrent

/-! ## §1. The ledger. -/

/-- The rows of an identity: its observed record and its candidates. -/
def rows (key : Bytes) (db : Store) : List Record :=
  (db.observed key).toList ++ (db.candidates.map (·.1)).filter fun r => r.publicKey = key

structure Ledger where
  root : Root
  /-- Every row the root ever had. -/
  stored : List Record
  /-- The candidates that were signed, each with what had been stored by then. -/
  signed : List (Record × List Record)
  /-- The candidates that were signed and stored. -/
  accepted : List Record

/-- The record that an operation sends out. -/
def sends : Op → Option Record
  | .candidates _ record => some record
  | .put record => some record
  | _ => none

/-- The record that was signed right before the operation: `prepare` validates it first. -/
def signs : Op → Option Record
  | .validatePublication record => some record
  | _ => none

/-- The candidate that the operation stores, if it is a row afterwards. -/
def stores (key : Bytes) (db : Store) : Op → List Record
  | .acceptCandidate record _ => if record ∈ rows key db then [record] else []
  | _ => []

/-- The ledger after an operation that leaves the root at `root`. -/
def Ledger.after (config : Config) (op : Op) (root : Root) (l : Ledger) : Ledger where
  root := root
  stored := l.stored ++ rows config.signer.publicKey root.store
  signed := l.signed ++ ((signs op).map fun record => (record, l.stored)).toList
  accepted := l.accepted ++ stores config.signer.publicKey root.store op

def Ledger.handle (config : Config) (op : Op) (i : Answer) (l : Ledger) :
    Option (Ledger × op.Ret) :=
  (Root.handle config op i l.root).map fun out => (l.after config op out.1, out.2)

/-! ## §2. No operation lowers `maximum`. -/

theorem rows_le_maximum {key : Bytes} {db : Store} {r : Record} (h : r ∈ rows key db) :
    r.sequence ≤ db.maximum key := by
  have hmax : db.maximum key ≤ db.maximum key := le_rfl
  obtain ⟨hobserved, hcandidates⟩ := Tables.maximum_le.mp hmax
  rcases List.mem_append.mp h with ho | hc
  · exact hobserved r (Option.mem_toList.mp ho)
  · obtain ⟨hmem, hkey⟩ := List.mem_filter.mp hc
    obtain ⟨row, hrow, rfl⟩ := List.mem_map.mp hmem
    exact hcandidates row hrow (of_decide_eq_true hkey)

/-- The locations are a table of their own. -/
theorem setLocations_keeps {wire : Wire} {record : Locations} {db db' : Store}
    (hdb : Tables.Consistent db) (h : Store.setLocations wire record db = .ok (db', ())) :
    Tables.Keeps db db' := by
  obtain ⟨locations, rfl⟩ := Store.setLocations_ok h
  exact ⟨⟨hdb.adopted_public, hdb.public_observed, hdb.candidates_followed⟩,
    ⟨fun _ => Tables.Below.refl _, fun _ => Tables.Below.refl _, fun _ => Tables.Below.refl _,
      fun _ hk => hk, fun _ => le_rfl⟩⟩

theorem tables_of_transact {α : Type} {t : Transaction α} {root root' : Root}
    {r : Except Failure α} (hdb : Tables.Consistent root.store)
    (ht : ∀ store a, t root.store = .ok (store, a) → Tables.Keeps root.store store)
    (h : some (root.transact t) = some (root', r)) : Tables.Keeps root.store root'.store := by
  obtain ⟨store, a, hok, hrun⟩ | ⟨e, -, hrun⟩ := root.transact_cases t
  · rw [hrun] at h
    obtain ⟨rfl, -⟩ := Prod.mk.inj (Option.some.inj h)
    exact ht store a hok
  · rw [hrun] at h
    obtain ⟨rfl, -⟩ := Prod.mk.inj (Option.some.inj h)
    exact Tables.keeps_refl hdb

/-- **Every operation keeps the tables consistent and only moves them up.** -/
theorem handle_tables {config : Config} {op : Op} {i : Answer} {root root' : Root} {r : op.Ret}
    (hdb : Tables.Consistent root.store) (h : Root.handle config op i root = some (root', r)) :
    Tables.Keeps root.store root'.store := by
  have hsame : ∀ {β : Type} {out r : β} {next : Root}, some (next, out) = some (root', r) →
      next.store = root.store → Tables.Keeps root.store root'.store := by
    intro β out r next hout hnext
    obtain ⟨rfl, -⟩ := Prod.mk.inj (Option.some.inj hout)
    rw [hnext]
    exact Tables.keeps_refl hdb
  unfold Root.handle at h
  split at h
  case h_3 => exact tables_of_transact hdb (fun _ _ hok => Tables.follow_keeps hdb hok) h
  case h_5 => exact tables_of_transact hdb (fun _ _ hok => Tables.observe_keeps hdb hok) h
  case h_7 =>
    exact tables_of_transact hdb
      (fun _ _ hok => Tables.acceptCandidate_keeps hdb hok) h
  case h_8 =>
    exact tables_of_transact hdb (fun _ _ hok => Tables.setPublic_keeps hdb hok) h
  case h_9 => exact tables_of_transact hdb (fun _ _ hok => Tables.adopt_keeps hdb hok) h
  case h_11 => exact tables_of_transact hdb (fun _ _ hok => setLocations_keeps hdb hok) h
  case h_24 =>
    split at h
    · exact hsame h rfl
    · cases h
  case h_26 =>
    split at h
    · exact hsame h rfl
    · cases h
  case h_29 =>
    obtain ⟨out, -, hout⟩ := Option.map_eq_some_iff.mp h
    exact hsame (congrArg some hout) rfl
  case h_30 =>
    obtain ⟨out, -, hout⟩ := Option.map_eq_some_iff.mp h
    exact hsame (congrArg some hout) rfl
  case h_31 => cases h
  all_goals exact hsame h rfl

/-- A candidate above `maximum` is stored, not only compared. -/
theorem acceptCandidate_new {wire : Wire} {record : Record} {metadata : Option Bytes}
    {db db' : Store} {changed : Bool} (hdb : Tables.Consistent db)
    (hnew : db.maximum record.publicKey < record.sequence)
    (h : Store.acceptCandidate wire record metadata db = .ok (db', changed)) :
    record ∈ rows record.publicKey db' := by
  obtain ⟨_, -, h⟩ := ok_of_bind h
  obtain ⟨_, -, h⟩ := ok_of_bind h
  obtain ⟨_, -, h⟩ := ok_of_bind h
  obtain ⟨_, -, h⟩ := ok_of_bind h
  split at h
  · -- an adopted record was observed, at a sequence that is not below its own
    rename_i hadopted
    obtain ⟨o, ho, hle, -⟩ := hdb.adopted_observed record.publicKey record hadopted
    have := Store.observed_le_maximum ho
    omega
  · split at h
    · -- and a stored candidate is not above `maximum` either
      rename_i row hrow
      have hmem := List.mem_of_find?_eq_some hrow
      have hsame : row.1.publicKey = record.publicKey ∧ row.1.sequence = record.sequence := by
        simpa using List.find?_some hrow
      have := Tables.candidate_le_maximum hmem
      rw [hsame.1, hsame.2] at this
      omega
    · obtain ⟨rfl, -⟩ := Prod.mk.inj (Except.ok.inj h)
      simp [rows]

/-! ## §3. The invariant. -/

structure Kept (config : Config) (l : Ledger) : Prop where
  consistent : Tables.Consistent l.root.store
  bounded : ∀ r ∈ l.stored, r.sequence ≤ l.root.store.maximum config.signer.publicKey
  increasing : l.accepted.Pairwise fun r r' => r.sequence < r'.sequence
  /-- A candidate of its own was stored, and was signed above everything stored before. -/
  accepted : ∀ r ∈ l.accepted, r ∈ l.stored ∧
    ∃ known, (r, known) ∈ l.signed ∧ ∀ x ∈ known, x.sequence < r.sequence
  journal : ∀ j, l.root.journal = some j → j.record ∈ l.accepted

/-- What an operation keeps to: it sends only candidates of its own that were stored. -/
def contract (config : Config) : Contract Op Op.Ret Answer Ledger where
  handle := Ledger.handle config
  rely l l' := l = l'
  allows _ _ _ := True
  requires op l := ∀ record, sends op = some record → record ∈ l.accepted
  guarantee _ l' := Kept config l'

namespace Kept

variable {config : Config} {l : Ledger}

/-- Whatever an operation does to the root, what was stored stays below `maximum`. -/
theorem after_bounded (h : Kept config l) {root : Root} (op : Op)
    (hkeeps : Tables.Keeps l.root.store root.store) :
    ∀ r ∈ (l.after config op root).stored,
      r.sequence ≤ root.store.maximum config.signer.publicKey := by
  intro r hr
  rcases List.mem_append.mp hr with hold | hnew
  · exact (h.bounded r hold).trans (hkeeps.2.maximum _)
  · exact rows_le_maximum hnew

theorem after_accepted (h : Kept config l) {root : Root} (op : Op) {r : Record}
    (hr : r ∈ l.accepted) : r ∈ (l.after config op root).stored ∧
      ∃ known, (r, known) ∈ (l.after config op root).signed ∧ ∀ x ∈ known, x.sequence < r.sequence := by
  obtain ⟨hstored, known, hsigned, hbelow⟩ := h.accepted r hr
  exact ⟨List.mem_append_left _ hstored, known, List.mem_append_left _ hsigned, hbelow⟩

/-- An operation that stores no candidate. -/
theorem after_plain (h : Kept config l) {root : Root} {op : Op}
    (hstores : stores config.signer.publicKey root.store op = [])
    (hkeeps : Tables.Keeps l.root.store root.store)
    (hjournal : ∀ j, root.journal = some j → j.record ∈ l.accepted) :
    Kept config (l.after config op root) := by
  have haccepted : (l.after config op root).accepted = l.accepted := by
    show l.accepted ++ _ = _
    rw [hstores, List.append_nil]
  refine ⟨hkeeps.1, h.after_bounded op hkeeps, haccepted ▸ h.increasing, ?_, haccepted ▸ hjournal⟩
  intro r hr
  exact h.after_accepted op (haccepted ▸ hr)

/-- A candidate that was signed above everything stored, not stored yet. -/
def Fresh (config : Config) (l : Ledger) (r : Record) : Prop :=
  l.root.store.maximum config.signer.publicKey < r.sequence ∧
    r.publicKey = config.signer.publicKey ∧
    ∃ known, (r, known) ∈ l.signed ∧ ∀ x ∈ known, x.sequence < r.sequence

/-- An operation that leaves the root alone leaves the candidate fresh. -/
theorem Fresh.after {r : Record} (h : Fresh config l r) (op : Op) :
    Fresh config (l.after config op l.root) r := by
  obtain ⟨hnew, hkey, known, hsigned, hbelow⟩ := h
  exact ⟨hnew, hkey, known, List.mem_append_left _ hsigned, hbelow⟩

/-- Storing a fresh candidate, or failing to. -/
theorem after_accept (h : Kept config l) {root : Root} {r : Record} {metadata : Bytes}
    (hfresh : Fresh config l r) (hkeeps : Tables.Keeps l.root.store root.store)
    (hjournal : root.journal = l.root.journal) :
    Kept config (l.after config (.acceptCandidate r metadata) root) := by
  obtain ⟨hnew, -, known, hsigned, hbelow⟩ := hfresh
  by_cases hr : r ∈ rows config.signer.publicKey root.store
  · have hstores : stores config.signer.publicKey root.store (.acceptCandidate r metadata) = [r] :=
      if_pos hr
    refine ⟨hkeeps.1, h.after_bounded _ hkeeps, ?_, ?_, ?_⟩
    · show (l.accepted ++ stores _ _ _).Pairwise _
      rw [hstores, List.pairwise_append]
      refine ⟨h.increasing, List.pairwise_singleton _ _, ?_⟩
      intro x hx y hy
      rw [List.mem_singleton.mp hy]
      exact lt_of_le_of_lt (h.bounded x (h.accepted x hx).1) hnew
    · intro x hx
      have hx' : x ∈ l.accepted ++ stores _ _ _ := hx
      rw [hstores] at hx'
      rcases List.mem_append.mp hx' with hold | hself
      · exact h.after_accepted _ hold
      · rw [List.mem_singleton.mp hself]
        exact ⟨List.mem_append_right _ hr, known, List.mem_append_left _ hsigned, hbelow⟩
    · intro j hj
      have hj' : root.journal = some j := hj
      rw [hjournal] at hj'
      exact List.mem_append_left _ (h.journal j hj')
  · have hstores : stores config.signer.publicKey root.store (.acceptCandidate r metadata) = [] :=
      if_neg hr
    apply h.after_plain hstores hkeeps
    intro j hj
    rw [hjournal] at hj
    exact h.journal j hj

end Kept

/-! ## §4. One operation. -/

section Steps

variable {config : Config} {l : Ledger}

/-- Perform an operation that sends only what it may. -/
theorem sat_op (op : Op) {Q : op.Ret → Ledger → Prop} {E : Failure → Ledger → Prop}
    (hsends : ∀ record, sends op = some record → record ∈ l.accepted)
    (hstep : ∀ i root r, Root.handle config op i l.root = some (root, r) →
      Kept config (l.after config op root) ∧ Q r (l.after config op root)) :
    Sat (contract config) (perform op) Q E l := by
  refine sat_perform.mpr ?_
  intro l₁ hr
  obtain rfl : l = l₁ := hr
  refine ⟨hsends, ?_⟩
  intro i l₂ r _ hh
  obtain ⟨out, hout, hsame⟩ := Option.map_eq_some_iff.mp hh
  obtain ⟨rfl, rfl⟩ := Prod.mk.inj hsame
  exact hstep i out.1 out.2 hout

/-- An operation that neither writes the journal nor stores a candidate. -/
theorem sat_plain (op : Op) {Q : op.Ret → Ledger → Prop} {E : Failure → Ledger → Prop}
    (h : Kept config l) (hsave : ¬ op.isSave) (hstores : ∀ key db, stores key db op = [])
    (hsends : ∀ record, sends op = some record → record ∈ l.accepted)
    (hnext : ∀ i root r, Root.handle config op i l.root = some (root, r) →
      Kept config (l.after config op root) →
      (l.after config op root).accepted = l.accepted → Q r (l.after config op root)) :
    Sat (contract config) (perform op) Q E l := by
  apply sat_op op hsends
  intro i root r hh
  have hjournal := (handle_keeps hsave hh).2
  have hkept : Kept config (l.after config op root) := by
    apply h.after_plain (hstores _ _) (handle_tables h.consistent hh)
    intro j hj
    rw [hjournal] at hj
    exact h.journal j hj
  refine ⟨hkept, hnext i root r hh hkept ?_⟩
  show l.accepted ++ stores _ _ _ = _
  rw [hstores, List.append_nil]

theorem quiet_stores {op : Op} (hop : op.isQuiet) (key : Bytes) (db : Store) :
    stores key db op = [] := by
  cases op <;> first | rfl | exact absurd hop id

theorem quiet_sends {op : Op} (hop : op.isQuiet) : sends op = none := by
  cases op <;> first | rfl | exact absurd hop id

/-- **A quiet part** keeps the ledger, and stores no candidate of its own. -/
theorem sat_quiet {α : Type} {t : Act α} (ht : t.All Op.isQuiet) (h : Kept config l) :
    Sat (contract config) t
      (fun _ l' => Kept config l' ∧ l'.accepted = l.accepted)
      (fun _ l' => Kept config l' ∧ l'.accepted = l.accepted) l := by
  refine sat_of_all (I := fun l' => Kept config l' ∧ l'.accepted = l.accepted) ?_ ?_ ht ⟨h, rfl⟩
  · intro a b hI hr
    obtain rfl : a = b := hr
    exact hI
  · intro op hop a hI
    have hop' : Sat (contract config) (perform op)
        (fun _ l' => Kept config l' ∧ l'.accepted = l.accepted) (fun _ _ => True) a := by
      apply sat_plain op hI.1 hop.not_save (quiet_stores hop)
      · intro record hrecord
        rw [quiet_sends hop] at hrecord
        cases hrecord
      · intro _ _ _ _ hkept hsame
        exact ⟨hkept, hsame.trans hI.2⟩
    obtain ⟨hreq, hstep⟩ := sat_perform.mp hop' a rfl
    refine ⟨hreq, ?_⟩
    intro i b r ha hh
    exact hstep i b r ha hh

/-- Write a journal whose candidate was stored. -/
theorem sat_save {j : Journal} {Q : Unit → Ledger → Prop} {E : Failure → Ledger → Prop}
    (h : Kept config l) (hj : j.record ∈ l.accepted)
    (hnext : ∀ l', Kept config l' → j.record ∈ l'.accepted → Q () l') :
    Sat (contract config) (perform (.save j)) Q E l := by
  apply sat_op (.save j)
  · intro record hrecord
    cases hrecord
  · intro i root r hh
    have hkeeps := handle_tables h.consistent hh
    have hjournal : root.journal = some j := by
      cases i with
      | done =>
        obtain ⟨rfl, -⟩ := Prod.mk.inj (Option.some.inj hh)
        rfl
      | _ => cases hh
    have hkept : Kept config (l.after config (.save j) root) := by
      apply h.after_plain rfl hkeeps
      intro j' hj'
      rw [hjournal] at hj'
      obtain rfl := Option.some.inj hj'
      exact hj
    exact ⟨hkept, hnext _ hkept (List.mem_append_left _ hj)⟩

/-! ## §5. `prepare`. -/

theorem quiet_current : current.All Op.isQuiet := by
  unfold current
  refine Fiber.all_bind (Fiber.all_raising (Fiber.all_perform.mpr trivial)) fun found => ?_
  refine Fiber.all_bind (Fiber.all_perform.mpr trivial) fun previous => ?_
  dsimp only
  cases highestOf (found ++ previous.toList) with
  | none => exact Fiber.all_pure _
  | some highest =>
    refine Fiber.all_bind (Fiber.all_ofExcept _) fun _ => ?_
    exact Fiber.all_bind (Fiber.all_raising (Fiber.all_perform.mpr trivial)) fun _ =>
      Fiber.all_pure _

/-- The operations between reading `maximum` and storing the candidate leave the root alone. -/
def Aside : Op → Prop
  | .maximum => True
  | .now => True
  | .validatePublication _ => True
  | .metadata _ => True
  | _ => False

theorem handle_aside {op : Op} {i : Answer} {root root' : Root} {r : op.Ret} (hop : Aside op)
    (h : Root.handle config op i root = some (root', r)) : root' = root := by
  cases op with
  | maximum => cases i <;> first | exact (Prod.mk.inj (Option.some.inj h)).1.symm | cases h
  | now => cases i <;> first | exact (Prod.mk.inj (Option.some.inj h)).1.symm | cases h
  | validatePublication _ =>
    cases i <;> first | exact (Prod.mk.inj (Option.some.inj h)).1.symm | cases h
  | metadata _ => cases i <;> first | exact (Prod.mk.inj (Option.some.inj h)).1.symm | cases h
  | _ => exact absurd hop id

/-- One of them. -/
theorem sat_aside (op : Op) {Q : op.Ret → Ledger → Prop} {E : Failure → Ledger → Prop}
    (h : Kept config l) (hop : Aside op) (hquiet : op.isQuiet)
    (hnext : ∀ i r l', Root.handle config op i l.root = some (l.root, r) →
      l' = l.after config op l.root → Kept config l' → Q r l') :
    Sat (contract config) (perform op) Q E l := by
  apply sat_plain op h hquiet.not_save (quiet_stores hquiet)
  · intro record hrecord
    rw [quiet_sends hquiet] at hrecord
    cases hrecord
  · intro i root r hh hkept _
    obtain rfl := handle_aside hop hh
    exact hnext i r _ hh rfl hkept

theorem sign_publicKey {wire : Wire} {signer : Signer} {seq : Nat} {infoHash : Bytes} {r : Record}
    (h : Record.sign wire signer seq infoHash = .ok r) : r.publicKey = signer.publicKey := by
  obtain ⟨payload, -, h⟩ := ok_of_bind h
  obtain ⟨_, -, h⟩ := ok_of_bind h
  obtain rfl := Except.ok.inj h
  rfl

/-- **The candidate is signed above everything the root ever stored, and then stored.** -/
theorem sat_signCandidate {value : Descriptor} (h : Kept config l) :
    Sat (contract config) (signCandidate config value)
      (fun candidate l' => Kept config l' ∧ candidate ∈ l'.accepted) (fun _ _ => True) l := by
  unfold signCandidate
  rw [sat_bind]
  refine sat_mono (sat_quiet (Fiber.all_raising (Fiber.all_perform.mpr trivial)) h) ?_
    (fun _ _ _ => trivial)
  intro descriptorHash l₁ h₁
  rw [sat_bind]
  apply sat_aside .maximum h₁.1 trivial trivial
  intro i maximum l₂ hh₂ hl₂ h₂
  -- The sequence is taken above the maximum of the store as it is read here.
  have hmax := handle_maximum hh₂
  have hroot₂ : l₂.root = l₁.root := by
    rw [hl₂]
    rfl
  rw [sat_bind]
  apply sat_aside .now h₂ trivial trivial
  intro i now l₃ _ hl₃ h₃
  have hroot₃ : l₃.root = l₁.root := by
    rw [hl₃]
    exact hroot₂
  rw [sat_bind, sat_ofExcept]
  refine ⟨?_, fun _ _ => trivial⟩
  intro seq hseq
  rw [sat_bind, sat_ofExcept]
  refine ⟨?_, fun _ _ => trivial⟩
  intro candidate hsign
  have hkey := sign_publicKey hsign
  have hnew : l₃.root.store.maximum config.signer.publicKey < candidate.sequence := by
    have hlt := lt_of_nextSequence hseq
    rw [Record.sign_sequence hsign, hroot₃]
    omega
  rw [sat_bind]
  apply sat_raising.mpr
  apply sat_aside (.validatePublication candidate) h₃ trivial trivial
  intro i validated l₄ _ hl₄ h₄
  -- everything stored so far is below `maximum`, hence below the candidate
  have hfresh₄ : Kept.Fresh config l₄ candidate := by
    subst hl₄
    refine ⟨hnew, hkey, l₃.stored, List.mem_append_right _ (List.mem_singleton.mpr rfl), ?_⟩
    intro x hx
    exact lt_of_le_of_lt (h₃.bounded x hx) hnew
  refine ⟨?_, fun _ _ => trivial⟩
  intro _ _
  rw [sat_bind]
  apply sat_raising.mpr
  apply sat_aside (.metadata descriptorHash) h₄ trivial trivial
  intro i answer l₅ _ hl₅ h₅
  -- Neither the validation nor the metadata touch the store.
  have hfresh₅ : Kept.Fresh config l₅ candidate := by
    subst hl₅
    exact hfresh₄.after (.metadata descriptorHash)
  refine ⟨?_, fun _ _ => trivial⟩
  intro metadata _
  rw [sat_bind]
  apply sat_raising.mpr
  apply sat_op (.acceptCandidate candidate metadata)
  · intro record hrecord
    cases hrecord
  · intro i root r hh
    have hsave : ¬ (Op.acceptCandidate candidate metadata).isSave := fun hs => hs
    have hjournal := (handle_keeps hsave hh).2
    have hkept : Kept config (l₅.after config (.acceptCandidate candidate metadata) root) :=
      h₅.after_accept hfresh₅ (handle_tables h₅.consistent hh) hjournal
    refine ⟨hkept, ?_, fun _ _ => trivial⟩
    intro changed hr
    refine ⟨hkept, List.mem_append_right _ ?_⟩
    -- a call that returns has stored it
    have hrow : candidate ∈ rows config.signer.publicKey root.store := by
      cases i with
      | done =>
        obtain ⟨rfl, hout⟩ := Prod.mk.inj (Option.some.inj hh)
        obtain ⟨store, a, hok, hrun⟩ | ⟨e, -, hrun⟩ := Store.run_cases
          (Store.acceptCandidate config.wire candidate (some metadata)) l₅.root.store
        · show candidate ∈ rows config.signer.publicKey (Transaction.run _ _).1
          rw [hrun, ← hkey]
          apply acceptCandidate_new h₅.consistent _ hok
          rw [hkey]
          exact hfresh₅.1
        · have hout' : (Transaction.run _ _).2 = r := hout
          rw [hr, hrun] at hout'
          cases hout'
      | _ => cases hh
    show candidate ∈ (if candidate ∈ rows config.signer.publicKey root.store then [candidate] else [])
    rw [if_pos hrow]
    exact List.mem_singleton.mpr rfl

theorem sat_prepare (args : Preparation) (h : Kept config l) :
    Sat (contract config) (prepare config args) (fun _ _ => True) (fun _ _ => True) l := by
  unfold prepare
  rw [sat_bind]
  refine sat_mono (sat_quiet (Fiber.all_raising (Fiber.all_perform.mpr trivial)) h) ?_
    (fun _ _ _ => trivial)
  intro _ l₁ h₁
  rw [sat_bind]
  refine sat_mono (sat_quiet (Fiber.all_perform.mpr trivial) h₁.1) ?_ (fun _ _ _ => trivial)
  intro old l₂ h₂
  rw [sat_bind, sat_ofExcept]
  refine ⟨?_, fun _ _ => trivial⟩
  intro _ _
  rw [sat_bind]
  refine sat_mono (sat_quiet quiet_current h₂.1) ?_ (fun _ _ _ => trivial)
  intro base l₃ h₃
  rw [sat_bind]
  refine sat_mono (sat_quiet (quiet_startingValue args base) h₃.1) ?_ (fun _ _ _ => trivial)
  intro value l₄ h₄
  rw [sat_bind]
  refine sat_mono (sat_quiet (Fiber.all_raising (Fiber.all_perform.mpr trivial)) h₄.1) ?_
    (fun _ _ _ => trivial)
  intro _ l₅ h₅
  rw [sat_bind]
  refine sat_mono (sat_quiet (quiet_withState args value) h₅.1) ?_ (fun _ _ _ => trivial)
  intro value l₆ h₆
  rw [sat_bind]
  refine sat_mono (sat_quiet (quiet_withProfile args value) h₆.1) ?_ (fun _ _ _ => trivial)
  intro value l₇ h₇
  rw [sat_bind]
  refine sat_mono (sat_signCandidate h₇.1) ?_ (fun _ _ _ => trivial)
  intro candidate l₈ h₈
  rw [sat_bind]
  refine sat_mono (sat_quiet quiet_prepareLocations h₈.1) ?_ (fun _ _ _ => trivial)
  intro locations l₉ h₉
  have hmem : candidate ∈ l₉.accepted := by
    rw [h₉.2]
    exact h₈.2
  exact sat_save h₉.1 hmem fun _ _ _ => trivial

/-! ## §6. `transfer` and `commit`. -/

/-- The journal that the process holds is about a candidate that was stored. -/
def Owns (config : Config) (j : Journal) (l : Ledger) : Prop :=
  Kept config l ∧ j.record ∈ l.accepted

/-- A quiet part on the way. -/
theorem sat_owning {α : Type} {t : Act α} {j : Journal} (ht : t.All Op.isQuiet)
    (h : Owns config j l) :
    Sat (contract config) t (fun _ l' => Owns config j l') (fun _ l' => Owns config j l') l :=
  sat_mono (sat_quiet ht h.1) (fun _ _ h' => ⟨h'.1, h'.2 ▸ h.2⟩) (fun _ _ h' => ⟨h'.1, h'.2 ▸ h.2⟩)

/-- Sending the candidate. -/
theorem sat_send (op : Op) {j : Journal} {Q : op.Ret → Ledger → Prop}
    {E : Failure → Ledger → Prop} (h : Owns config j l) (hsave : ¬ op.isSave)
    (hstores : ∀ key db, stores key db op = []) (hop : sends op = some j.record)
    (hnext : ∀ r l', Owns config j l' → Q r l') :
    Sat (contract config) (perform op) Q E l := by
  apply sat_plain op h.1 hsave hstores
  · intro record hrecord
    rw [hop] at hrecord
    rw [← Option.some.inj hrecord]
    exact h.2
  · intro i root r _ hkept hsame
    exact hnext r _ ⟨hkept, hsame ▸ h.2⟩

/-- The journal in the file is the one that the process reads. -/
theorem sat_journal {Q : Option Journal → Ledger → Prop} {E : Failure → Ledger → Prop}
    (h : Kept config l) (hnone : ∀ l', Q none l')
    (hsome : ∀ j l', Owns config j l' → Q (some j) l') :
    Sat (contract config) (perform .journal) Q E l := by
  apply sat_plain .journal h id (quiet_stores trivial)
  · intro record hrecord
    cases hrecord
  · intro i root held hh hkept hsame
    have hheld : held = l.root.journal := by
      cases i with
      | done => exact (Prod.mk.inj (Option.some.inj hh)).2.symm
      | _ => cases hh
    cases hj : l.root.journal with
    | none =>
      rw [hheld, hj]
      exact hnone _
    | some j =>
      rw [hheld, hj]
      exact hsome j _ ⟨hkept, hsame ▸ h.journal j hj⟩

theorem sat_offer {j : Journal} {node : Seedbox} (h : Owns config j l) :
    Sat (contract config) (offer j node)
      (fun j' l' => j'.record = j.record ∧ Owns config j' l') (fun _ _ => True) l := by
  unfold offer
  rw [sat_bind]
  apply sat_send (.candidates node j.record) h id (fun _ _ => rfl) rfl
  intro admission l₁ h₁
  cases admission with
  | unreachable => exact ⟨rfl, h₁⟩
  | interrupted =>
    dsimp only
    rw [sat_bind]
    exact sat_save h₁.1 (show Journal.record _ ∈ _ from h₁.2) fun _ hk hm => ⟨rfl, hk, hm⟩
  | conflicting body =>
    dsimp only
    rw [sat_bind]
    refine sat_save h₁.1 (show Journal.record _ ∈ _ from h₁.2) ?_
    intro _ _ _
    cases body with
    | ok text => exact trivial
    | error e => exact trivial
  | status code =>
    dsimp only
    rw [sat_ite]
    refine ⟨fun _ => ⟨rfl, h₁⟩, fun _ => ?_⟩
    rw [sat_ite]
    refine ⟨fun _ => trivial, fun _ => ?_⟩
    rw [sat_ite]
    refine ⟨fun _ => ⟨rfl, h₁⟩, fun _ => ?_⟩
    rw [sat_bind]
    exact sat_save h₁.1 (show Journal.record _ ∈ _ from h₁.2) fun _ hk hm => ⟨rfl, hk, hm⟩

theorem sat_awaitCopy {j : Journal} (polls : Nat) (l : Ledger) (h : Owns config j l) :
    Sat (contract config) (awaitCopy j polls) (fun _ _ => True) (fun _ _ => True) l := by
  induction polls generalizing l with
  | zero => exact trivial
  | succ polls ih =>
    unfold awaitCopy
    rw [sat_bind]
    refine sat_mono (sat_owning (Fiber.all_perform.mpr trivial) h) ?_ (fun _ _ _ => trivial)
    intro node l₁ h₁
    cases node with
    | none => exact ih l₁ h₁
    | some name => exact sat_save h₁.1 (show Journal.record _ ∈ _ from h₁.2) fun _ _ _ => trivial

theorem sat_transfer (h : Kept config l) :
    Sat (contract config) (transfer config) (fun _ _ => True) (fun _ _ => True) l := by
  unfold transfer
  rw [sat_bind]
  apply sat_journal h (fun _ => trivial)
  intro j l₁ h₁
  dsimp only
  rw [sat_bind]
  refine sat_mono (sat_owning (Fiber.all_raising (Fiber.all_perform.mpr trivial)) h₁) ?_
    (fun _ _ _ => trivial)
  intro value l₂ h₂
  rw [sat_bind]
  refine sat_mono (sat_owning (Fiber.all_raising (Fiber.all_perform.mpr trivial)) h₂) ?_
    (fun _ _ _ => trivial)
  intro _ l₃ h₃
  rw [sat_bind]
  refine sat_save h₃.1 (show Journal.record _ ∈ _ from h₃.2) ?_
  intro l₄ hk₄ hm₄
  rw [sat_bind]
  have hloop := sat_foldlM (c := contract config) (E := fun _ _ => True) offer
    (fun _ j' l' => Owns config j' l') config.nodes
    (fun _ _ _ _ _ _ hI => sat_mono (sat_offer hI) (fun _ _ h' => h'.2) (fun _ _ _ => trivial))
    _ _ (show Owns config { j with phase := .transferring } l₄ from ⟨hk₄, hm₄⟩)
  refine sat_mono hloop ?_ (fun _ _ _ => trivial)
  intro j' l' h'
  rw [sat_bind, sat_ofExcept]
  exact ⟨fun _ _ => sat_awaitCopy config.polls l' h', fun _ _ => trivial⟩

theorem sat_putBoth {j : Journal} (h : Owns config j l) :
    Sat (contract config) (putBoth j) (fun _ l' => Owns config j l') (fun _ _ => True) l := by
  have hcaught : ∀ e l', Owns config j l' → Sat (contract config)
      (if e.isConflict then do
        perform (.save { j with phase := .conflict })
        throw e
      else throw e : Act Unit) (fun _ l'' => Owns config j l'') (fun _ _ => True) l' := by
    intro e l' h'
    rw [sat_ite]
    refine ⟨fun _ => ?_, fun _ => trivial⟩
    rw [sat_bind]
    exact sat_save h'.1 (show Journal.record _ ∈ _ from h'.2) fun _ _ _ => trivial
  unfold putBoth
  rw [sat_tryCatch, sat_bind]
  refine sat_mono (sat_owning (quiet_commitLocations j.locations) h) ?_ hcaught
  intro _ l₁ h₁
  apply sat_raising.mpr
  apply sat_send (.put j.record) h₁ id (fun _ _ => rfl) rfl
  intro r l₂ h₂
  exact ⟨fun _ _ => h₂, fun e _ => hcaught e l₂ h₂⟩

theorem sat_confirm {j : Journal} (h : Owns config j l) :
    Sat (contract config) (confirm j) (fun _ _ => True) (fun _ _ => True) l := by
  unfold confirm
  rw [sat_bind]
  refine sat_mono (sat_owning (Fiber.all_raising (Fiber.all_perform.mpr trivial)) h) ?_
    (fun _ _ _ => trivial)
  intro readback l₁ h₁
  cases readback with
  | none => exact trivial
  | some readback =>
    dsimp only
    rw [sat_ite]
    constructor
    · intro _
      rw [sat_bind]
      exact sat_save h₁.1 (show Journal.record _ ∈ _ from h₁.2) fun _ _ _ => trivial
    · intro _
      rw [sat_bind]
      refine sat_mono (sat_owning (Fiber.all_raising (Fiber.all_perform.mpr trivial)) h₁) ?_
        (fun _ _ _ => trivial)
      intro _ l₂ h₂
      rw [sat_bind]
      refine sat_mono (sat_owning (Fiber.all_raising (Fiber.all_perform.mpr trivial)) h₂) ?_
        (fun _ _ _ => trivial)
      intro value l₃ h₃
      rw [sat_bind]
      refine sat_mono (sat_owning (Fiber.all_raising (Fiber.all_perform.mpr trivial)) h₃) ?_
        (fun _ _ _ => trivial)
      intro _ l₄ h₄
      exact sat_save h₄.1 (show Journal.record _ ∈ _ from h₄.2) fun _ _ _ => trivial

theorem sat_commit (h : Kept config l) :
    Sat (contract config) commit (fun _ _ => True) (fun _ _ => True) l := by
  unfold commit
  rw [sat_bind]
  apply sat_journal h (fun _ => trivial)
  intro j l₁ h₁
  dsimp only
  rw [sat_bind]
  refine sat_mono (sat_owning (Fiber.all_perform.mpr trivial) h₁) ?_ (fun _ _ _ => trivial)
  intro node l₂ h₂
  rw [sat_bind, sat_ofExcept]
  refine ⟨?_, fun _ _ => trivial⟩
  intro _ _
  rw [sat_bind]
  refine sat_mono (sat_owning quiet_current h₂) ?_ (fun _ _ _ => trivial)
  intro now l₃ h₃
  rw [sat_ite]
  constructor
  · intro _
    rw [sat_bind]
    exact sat_save h₃.1 (show Journal.record _ ∈ _ from h₃.2) fun _ _ _ => trivial
  · intro _
    rw [sat_bind]
    refine sat_save h₃.1 (show Journal.record _ ∈ _ from h₃.2) ?_
    intro l₄ hk₄ hm₄
    rw [sat_bind]
    refine sat_mono (sat_putBoth ⟨hk₄, hm₄⟩) ?_ (fun _ _ _ => trivial)
    intro _ l₅ h₅
    exact sat_confirm h₅

end Steps

/-! ## §7. Runs. -/

/-- The processes of one root, with its history. -/
abbrev LedgerPool := Pool Unit Call Op Op.Ret Failure Unit Ledger

def beginCall (_ : Unit) (_ : Call) (l : Ledger) : Ledger :=
  { l with root := Torrent.beginCall () .status l.root }

def LedgerPool.step (config : Config) : LedgerPool → RootEvent → Option LedgerPool :=
  Pool.step (fun _ call => call.program config) beginCall (fun _ _ => Ledger.handle config)

/-- A root that no process has used. -/
def LedgerPool.fresh : LedgerPool :=
  { shared := { root := RootPool.fresh.shared, stored := [], signed := [], accepted := [] }
    tasks := fun _ => none }

/-- The running process has issued an operation that sends the record out. -/
def LedgerPool.Sending (p : LedgerPool) (record : Record) : Prop :=
  ∃ call op, p.doing () = some (call, some op) ∧ sends op = some record

def discipline (config : Config) : Discipline Unit Call Op Op.Ret Failure Unit Answer Ledger where
  contract _ _ := contract config
  inv := Kept config
  may _ _ _ := True
  returns _ _ _ _ := True
  throws _ _ _ _ := True

theorem program_sat {config : Config} {call : Call} {l : Ledger} (h : Kept config l) :
    Sat (contract config) (call.program config) (fun _ _ => True) (fun _ _ => True) l := by
  cases call with
  | status =>
    show Sat _ (current >>= fun _ => pure ()) _ _ l
    rw [sat_bind]
    exact sat_mono (sat_quiet quiet_current h) (fun _ _ _ => trivial) (fun _ _ _ => trivial)
  | prepare args => exact sat_prepare args h
  | transfer => exact sat_transfer h
  | commit => exact sat_commit h
  | locations =>
    exact sat_mono (sat_quiet (Fiber.all_bind quiet_prepareLocations quiet_commitLocations) h)
      (fun _ _ _ => trivial) (fun _ _ _ => trivial)

/-- Beginning a call touches neither the files nor the history. -/
theorem Kept.begins {config : Config} {l : Ledger} (h : Kept config l) (call : Call) :
    Kept config (beginCall () call l) :=
  ⟨h.consistent, h.bounded, h.increasing, h.accepted, h.journal⟩

theorem discipline_sound (config : Config) :
    (discipline config).Sound (fun _ call => call.program config) beginCall
      (fun _ _ => Ledger.handle config) where
  handled _ _ _ _ _ := rfl
  rely_refl _ _ _ _ := rfl
  rely_trans _ _ _ _ _ h h' := Eq.trans h h'
  others k _ k' _ _ _ hk := absurd (Subsingleton.elim k k') hk
  keeps _ _ _ _ _ h := h
  returns_stable _ _ _ _ _ _ _ := trivial
  throws_stable _ _ _ _ _ _ _ := trivial
  begins k call _ h _ := ⟨h.begins call, fun k' _ hk => absurd (Subsingleton.elim k k') hk⟩
  program_sat _ call _ h _ := program_sat (h.begins call)

theorem holds_fresh (config : Config) : (discipline config).Holds LedgerPool.fresh where
  inv :=
    { consistent := Tables.consistent_new
      bounded := fun r hr => by cases hr
      increasing := List.Pairwise.nil
      accepted := fun r hr => by cases hr
      journal := fun j hj => by cases hj }
  sat := by
    intro k call t ht
    cases ht

theorem holds_run {config : Config} {p p' : LedgerPool} {events : List RootEvent}
    (hp : (discipline config).Holds p) (hrun : run (LedgerPool.step config) p events = some p') :
    (discipline config).Holds p' := by
  apply pool_invariant (discipline_sound config) events hp _ hrun
  apply throughout_of_forall
  intro q e
  cases e with
  | start k call => exact trivial
  | drop k => exact trivial
  | advance k input => exact fun _ _ _ _ => trivial

/-- A candidate that was stored stays in the history. -/
theorem accepted_step {config : Config} {p p' : LedgerPool} {e : RootEvent} {r : Record}
    (hr : r ∈ p.shared.accepted) (h : LedgerPool.step config p e = some p') :
    r ∈ p'.shared.accepted := by
  cases e with
  | start k call =>
    obtain rfl := step_start h
    exact hr
  | advance k input =>
    obtain ⟨call, op, next, s', out, -, hh, rfl⟩ := step_advance h
    obtain ⟨found, -, hsame⟩ := Option.map_eq_some_iff.mp hh
    obtain ⟨rfl, -⟩ := Prod.mk.inj hsame
    exact List.mem_append_left _ hr
  | drop k =>
    obtain rfl := Option.some.inj h
    exact hr

/-- What is sent was stored by this root before, and signed above everything it had stored. -/
theorem accepted_of_sending {config : Config} {p : LedgerPool} {r : Record}
    (hp : (discipline config).Holds p) (h : p.Sending r) : r ∈ p.shared.accepted := by
  obtain ⟨call, op, hdoing, hop⟩ := h
  exact hp.requires (discipline_sound config) hdoing r hop

/-- **One sequence, one record.**  In every run of calls on one root, cut anywhere, with every
    clock and every answer: a record that is sent was stored before and was signed above every
    row the root had ever had; and of two records that are sent, at whatever times, the same
    sequence means the same record. -/
theorem sequence_unique (config : Config) (events more : List RootEvent) (p p' : LedgerPool)
    (r r' : Record) (hrun : run (LedgerPool.step config) .fresh events = some p)
    (hmore : run (LedgerPool.step config) p more = some p') (hr : p.Sending r)
    (hr' : p'.Sending r') :
    r ∈ p.shared.stored ∧
      (∃ known, (r, known) ∈ p.shared.signed ∧ ∀ x ∈ known, x.sequence < r.sequence) ∧
      (r.sequence = r'.sequence → r = r') := by
  have hp := holds_run (holds_fresh config) hrun
  have hp' := holds_run hp hmore
  have hmem := accepted_of_sending hp hr
  have hmem' := accepted_of_sending hp' hr'
  obtain ⟨hstored, hsigned⟩ := hp.inv.accepted r hmem
  refine ⟨hstored, hsigned, ?_⟩
  intro hseq
  have hlater : r ∈ p'.shared.accepted :=
    run_keeps (I := fun q => r ∈ q.shared.accepted) (fun _ _ _ h hs => accepted_step h hs)
      more p p' hmem hmore
  -- the stored candidates go strictly up
  have hpair := List.pairwise_iff_getElem.mp hp'.inv.increasing
  by_contra hne
  obtain ⟨i, hi, rfl⟩ := List.getElem_of_mem hlater
  obtain ⟨k, hk, rfl⟩ := List.getElem_of_mem hmem'
  rcases Nat.lt_trichotomy i k with hlt | rfl | hgt
  · exact absurd hseq (Nat.ne_of_lt (hpair i k hi hk hlt))
  · exact hne rfl
  · exact absurd hseq (Nat.ne_of_gt (hpair k i hk hi hgt))

/-- A candidate is prepared, and `transfer` is about to offer it. -/
def demoOffering : List RootEvent :=
  demoPrepare 1 demoDescriptor ++ [.drop ()] ++ demoTransfer.take 5

/-- The transfer goes on, and `commit` is about to put the candidate into the DHT. -/
def demoPutting : List RootEvent :=
  demoTransfer.drop 5 ++ demoCommit ++
    [.advance () (.putLocations .stored),
     .advance () (.locations (.ok (some (demoLocations 1)))), .advance () .done]

def demoOffered : LedgerPool :=
  (run (LedgerPool.step demoConfig) .fresh demoOffering).getD .fresh

def demoPut : LedgerPool := (run (LedgerPool.step demoConfig) demoOffered demoPutting).getD demoOffered

/-- The candidate is published and adopted.  Then the clock is set back, and another disk is prepared. -/
def demoReturning : List RootEvent :=
  [.advance () (.put .stored), .advance () (.record (.ok (some (demoJournal .prepared).record))),
    .advance () .done, .advance () (.value (.ok ⟨demoDisk, none, none⟩)), .advance () .done,
    .advance () .done, .drop (),
    .start () (.prepare ⟨.publish, some "disk.my98", none, none, false⟩), .advance () .done,
    .advance () .done, .advance () (.records (.ok [])), .advance () .done, .advance () .done,
    .advance () (.bytes (.ok demoDisk)), .advance () (.nothing (.ok ())),
    .advance () (.bytes (.ok (List.replicate 20 3))), .advance () .done, .advance () (.clock 0),
    .advance () (.nothing (.ok ())), .advance () (.bytes (.ok [1])), .advance () .done,
    .advance () (.locations (.ok none)), .advance () .done, .advance () (.clock 0), .advance () .done,
    .drop ()] ++ demoTransfer.take 5

def demoAgain : LedgerPool :=
  (run (LedgerPool.step demoConfig) .fresh (demoOffering ++ demoPutting ++ demoReturning)).getD .fresh

/-- The second candidate. -/
def demoSecond : Record := ⟨List.replicate 32 0, 2, List.replicate 20 3, List.replicate 64 0⟩

/-- The candidate is offered and put, and the next one is signed above it in spite of the clock. -/
theorem demoPutting_unique :
    demoOffered.Sending (demoJournal .prepared).record ∧
      demoPut.Sending (demoJournal .prepared).record ∧
      (demoJournal .prepared).record ∈ demoOffered.shared.stored ∧
      demoAgain.Sending demoSecond ∧
      ∃ known, (demoSecond, known) ∈ demoAgain.shared.signed ∧
        ∀ x ∈ known, x.sequence < demoSecond.sequence := by
  have hoffer : demoOffered.Sending (demoJournal .prepared).record :=
    ⟨.transfer, .candidates ⟨"n", "a"⟩ (demoJournal .prepared).record, by decide +kernel, rfl⟩
  have hput : demoPut.Sending (demoJournal .prepared).record :=
    ⟨.commit, .put (demoJournal .prepared).record, by decide +kernel, rfl⟩
  have hagain : demoAgain.Sending demoSecond :=
    ⟨.transfer, .candidates ⟨"n", "a"⟩ demoSecond, by decide +kernel, rfl⟩
  have hrun : run (LedgerPool.step demoConfig) .fresh (demoOffering ++ demoPutting ++ demoReturning)
      = some demoAgain := run_getD (by decide +kernel)
  have hfirst := sequence_unique demoConfig demoOffering demoPutting demoOffered demoPut _ _
    (run_getD (by decide +kernel)) (run_getD (by decide +kernel)) hoffer hput
  have hsecond := sequence_unique demoConfig _ [] demoAgain demoAgain _ _ hrun rfl hagain hagain
  exact ⟨hoffer, hput, hfirst.1, hagain, hsecond.2.1⟩

end My98.Torrent.Sequences
