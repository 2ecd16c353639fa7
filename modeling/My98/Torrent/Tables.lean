/-
  My98.Torrent.Tables — what the store's tables keep over EVERY history of its methods.

  Any number of processes open the same database; each method is one transaction, so a history
  is a list of methods in the order in which they commit, with restarts and killed
  transactions in between.

    • `Below a b`    — `b` is a later version of `a`: not older, and equal in value where it has
                       the same sequence.  A preorder on optional rows;
    • `Consistent`   — adopted ⊑ public ⊑ observed for every key, and only followed keys have
                       candidates;
    • `Extends`      — every row only moves up along `⊑`, and so does `maximum`;
    • `history_kept` — both, for whole histories.

  The only deletion is `adopt`'s, of candidates up to the adopted sequence.  It never lowers
  `maximum`, since the adopted record is the public name and the public name was observed.

  A call of `maximum` reads the observed row and the candidates in two transactions.  A process
  that holds the root's lock reads them as one; where other processes commit in between,
  `store_invariants` says when a call can return less than an earlier one.
-/
import Mathlib.Algebra.Order.Ring.Nat
import Mathlib.Tactic.Common
import My98.Lib.Machine
import My98.Torrent.Store

namespace My98.Torrent.Tables

open My98.Lib My98.Torrent

/-! ## §1. Histories. -/

/-- The methods that write records. -/
inductive Method where
  | observe (record : Record)
  | acceptCandidate (record : Record) (metadata : Option Bytes)
  | setPublic (record : Record)
  | adopt (record : Record) (value : Descriptor)
  | follow (key : Bytes)

/-- The transaction of a method; `some` result where the method returns a flag. -/
def Method.transaction (wire : Wire) : Method → Transaction (Option Bool)
  | .observe record => fun db =>
    (Store.observe wire record db).map fun out => (out.1, some out.2)
  | .acceptCandidate record metadata => fun db =>
    (Store.acceptCandidate wire record metadata db).map fun out => (out.1, some out.2)
  | .setPublic record => fun db =>
    (Store.setPublic wire record db).map fun out => (out.1, none)
  | .adopt record value => fun db =>
    (Store.adopt wire record value db).map fun out => (out.1, none)
  | .follow key => fun db => (Store.follow key db).map fun out => (out.1, none)

/-- What happens to the database: a method runs to its end, a process dies inside one, or
    a process opens the database again (`CREATE TABLE IF NOT EXISTS`). -/
inductive Event where
  | call (m : Method)
  | killed (m : Method)
  | reopen

/-- One event.  SQLite rolls back a transaction whose process dies before the commit. -/
def step (wire : Wire) (db : Store) : Event → Option Store
  | .call m => some ((m.transaction wire).run db).1
  | .killed _ => some db
  | .reopen => some db

/-! ## §2. Later versions. -/

/-- `b` is a later version of `a`: once there is a row there is a row, its sequence never
    decreases, and at one sequence there is one value. -/
def Below (a b : Option Record) : Prop :=
  ∀ r, a = some r → ∃ r', b = some r' ∧ r.sequence ≤ r'.sequence ∧
    (r.sequence = r'.sequence → Signed.value r = Signed.value r')

theorem Below.refl (a : Option Record) : Below a a := by
  intro r hr
  exact ⟨r, hr, le_rfl, fun _ => rfl⟩

theorem Below.trans {a b d : Option Record} (h : Below a b) (h' : Below b d) : Below a d := by
  intro r hr
  obtain ⟨r₁, hr₁, hle₁, hval₁⟩ := h r hr
  obtain ⟨r₂, hr₂, hle₂, hval₂⟩ := h' r₁ hr₁
  refine ⟨r₂, hr₂, hle₁.trans hle₂, ?_⟩
  -- the middle sequence is squeezed between the two equal ones
  intro heq
  have h₁ : r.sequence = r₁.sequence := by omega
  have h₂ : r₁.sequence = r₂.sequence := by omega
  exact (hval₁ h₁).trans (hval₂ h₂)

theorem below_none (b : Option Record) : Below none b := by
  intro r hr
  cases hr

/-- A record that passed the comparison is a later version of what it was compared with. -/
theorem below_of_compare {wire : Wire} {previous : Option Record} {record : Record} {news : Bool}
    (h : compare wire previous record = .ok news) : Below previous (some record) := by
  intro p hp
  subst hp
  refine ⟨record, rfl, ?_⟩
  obtain ⟨-, ⟨-, hlt⟩ | ⟨-, heq, hval⟩⟩ := compare_ok h
  · exact ⟨hlt.le, fun heq => absurd heq hlt.ne⟩
  · exact ⟨heq.le, fun _ => hval⟩

/-- The same for a comparison that found no news: the old row is as late as the record. -/
theorem below_of_not_news {wire : Wire} {previous : Option Record} {record : Record}
    (h : compare wire previous record = .ok false) : Below (some record) previous := by
  intro r hr
  obtain rfl := Option.some.inj hr
  cases previous with
  | none => cases compare_none h
  | some p =>
    obtain ⟨-, ⟨hn, -⟩ | ⟨-, heq, hval⟩⟩ := compare_ok h
    · cases hn
    · exact ⟨p, rfl, heq.ge, fun _ => hval.symm⟩

/-- Replacing one row by a later version moves a whole table up. -/
theorem below_update {table : Bytes → Option Record} {key : Bytes} {record : Record}
    (h : Below (table key) (some record)) (k : Bytes) :
    Below (table k) (Function.update table key (some record) k) := by
  by_cases hk : k = key
  · subst hk
    rw [Function.update_self]
    exact h
  · rw [Function.update_of_ne hk]
    exact Below.refl _

/-! ## §3. The highest pending sequence. -/

/-- The sequence of an optional row; `row[0] or 0`. -/
def level (r : Option Record) : Nat := (r.map (·.sequence)).getD 0

/-- A fold that keeps the better row at each step keeps the best one. -/
theorem level_foldl_le {f : Option Record → Record × Option Bytes → Option Record} {bound : Nat}
    (hf : ∀ best row, level (f best row) ≤ bound ↔ level best ≤ bound ∧ row.1.sequence ≤ bound)
    (rows : List (Record × Option Bytes)) (best : Option Record) :
    level (rows.foldl f best) ≤ bound ↔
      level best ≤ bound ∧ ∀ row ∈ rows, row.1.sequence ≤ bound := by
  induction rows generalizing best with
  | nil => simp
  | cons row rows ih => rw [List.foldl_cons, ih, hf, List.forall_mem_cons, and_assoc]

theorem level_pending_le {db : Store} {key : Bytes} {bound : Nat} :
    level (db.pending key) ≤ bound ↔
      ∀ row ∈ db.candidates, row.1.publicKey = key → row.1.sequence ≤ bound := by
  unfold Store.pending
  rw [level_foldl_le]
  · simp [level, List.mem_filter]
  · intro best row
    cases best with
    | none => simp [level]
    | some r =>
      dsimp only
      split
      · simp only [level, Option.map_some, Option.getD_some]
        omega
      · simp only [level, Option.map_some, Option.getD_some]
        omega

/-- `maximum` is the least bound of the observed sequence and of every candidate's. -/
theorem maximum_le {db : Store} {key : Bytes} {bound : Nat} :
    db.maximum key ≤ bound ↔
      (∀ o, db.observed key = some o → o.sequence ≤ bound) ∧
        ∀ row ∈ db.candidates, row.1.publicKey = key → row.1.sequence ≤ bound := by
  show max (level (db.observed key)) (level (db.pending key)) ≤ bound ↔ _
  rw [max_le_iff, level_pending_le]
  refine and_congr_left fun _ => ?_
  cases db.observed key with
  | none => simp [level]
  | some o => simp [level]

theorem candidate_le_maximum {db : Store} {row : Record × Option Bytes}
    (h : row ∈ db.candidates) : row.1.sequence ≤ db.maximum row.1.publicKey :=
  (maximum_le.mp le_rfl).2 row h rfl

/-- A call of `maximum` is bounded by the tables of its second read, if no observed row went back. -/
theorem maximumOf_le {first second : Store} {key : Bytes}
    (h : Below (first.observed key) (second.observed key)) :
    first.maximumOf second key ≤ second.maximum key := by
  refine max_le_max ?_ le_rfl
  cases ho : first.observed key with
  | none => exact Nat.zero_le _
  | some o =>
    obtain ⟨o', ho', hle, -⟩ := h o ho
    rw [ho']
    exact hle

/-- What a call misses of the tables of its second read, their observed row makes up for. -/
theorem maximum_le_maximumOf (first second : Store) (key : Bytes) :
    second.maximum key ≤ max (first.maximumOf second key) (level (second.observed key)) :=
  max_le (le_max_right _ _) ((le_max_right _ _).trans (le_max_left _ _))

/-- A call covers every candidate of its first read that is either still there at the second or
    not above the observed row. -/
theorem maximum_le_of_candidates {first second : Store} {key : Bytes}
    (h : ∀ row ∈ first.candidates, row.1.publicKey = key →
      row ∈ second.candidates ∨ row.1.sequence ≤ level (first.observed key)) :
    first.maximum key ≤ first.maximumOf second key := by
  refine max_le (le_max_left _ _) (level_pending_le.mpr fun row hrow hkey => ?_)
  obtain hkept | hseen := h row hrow hkey
  · exact (level_pending_le.mp le_rfl row hkept hkey).trans (le_max_right _ _)
  · exact hseen.trans (le_max_left _ _)

/-! ## §4. The invariant and the order of histories. -/

/-- What the tables say about each other. -/
structure Consistent (db : Store) : Prop where
  adopted_public : ∀ key, Below ((db.adopted key).map (·.1)) (db.publicNames key)
  public_observed : ∀ key, Below (db.publicNames key) (db.observed key)
  candidates_followed : ∀ row ∈ db.candidates, row.1.publicKey ∈ db.followed

/-- The end-to-end order of the three tables. -/
theorem Consistent.adopted_observed {db : Store} (h : Consistent db) (key : Bytes) :
    Below ((db.adopted key).map (·.1)) (db.observed key) :=
  (h.adopted_public key).trans (h.public_observed key)

theorem consistent_new : Consistent Store.new where
  adopted_public _ := below_none _
  public_observed _ := below_none _
  candidates_followed row hrow := absurd hrow (by simp [Store.new])

/-- Every table only moves up. -/
structure Extends (db db' : Store) : Prop where
  observed : ∀ key, Below (db.observed key) (db'.observed key)
  publicNames : ∀ key, Below (db.publicNames key) (db'.publicNames key)
  adopted : ∀ key, Below ((db.adopted key).map (·.1)) ((db'.adopted key).map (·.1))
  followed : ∀ key ∈ db.followed, key ∈ db'.followed
  maximum : ∀ key, db.maximum key ≤ db'.maximum key

theorem Extends.refl (db : Store) : Extends db db where
  observed _ := Below.refl _
  publicNames _ := Below.refl _
  adopted _ := Below.refl _
  followed _ h := h
  maximum _ := le_rfl

theorem Extends.trans {a b d : Store} (h : Extends a b) (h' : Extends b d) : Extends a d where
  observed key := (h.observed key).trans (h'.observed key)
  publicNames key := (h.publicNames key).trans (h'.publicNames key)
  adopted key := (h.adopted key).trans (h'.adopted key)
  followed key hk := h'.followed key (h.followed key hk)
  maximum key := (h.maximum key).trans (h'.maximum key)

/-- `maximum` moves up with the observed row while no candidate disappears. -/
theorem maximum_mono {db db' : Store} (hobs : ∀ key, Below (db.observed key) (db'.observed key))
    (hcand : ∀ row ∈ db.candidates, row ∈ db'.candidates) (key : Bytes) :
    db.maximum key ≤ db'.maximum key := by
  refine maximum_le.mpr ⟨?_, ?_⟩
  · intro o ho
    obtain ⟨o', ho', hle, -⟩ := hobs key o ho
    exact hle.trans (Store.observed_le_maximum ho')
  · intro row hrow hkey
    subst hkey
    exact candidate_le_maximum (hcand row hrow)

/-! ## §5. One lemma per method. -/

/-- Observing a record moves its row up to it, and leaves the other tables alone. -/
theorem observing_below {wire : Wire} {record : Record} {db db' : Store} {news : Bool}
    (h : Store.observing wire record db = .ok (db', news)) :
    (∀ key, Below (db.observed key) (db'.observed key)) ∧
      Below (some record) (db'.observed record.publicKey) := by
  obtain ⟨isNews, hcmp, h⟩ := ok_of_bind h
  cases isNews with
  | true =>
    obtain ⟨rfl, -⟩ := Prod.mk.inj (Except.ok.inj h)
    refine ⟨below_update (below_of_compare hcmp), ?_⟩
    show Below (some record) (Function.update db.observed record.publicKey (some record) _)
    rw [Function.update_self]
    exact Below.refl _
  | false =>
    obtain ⟨rfl, -⟩ := Prod.mk.inj (Except.ok.inj h)
    exact ⟨fun _ => Below.refl _, below_of_not_news hcmp⟩

/-- What a method does to consistent tables: they stay consistent, and only move up. -/
def Keeps (db db' : Store) : Prop := Consistent db' ∧ Extends db db'

theorem keeps_refl {db : Store} (h : Consistent db) : Keeps db db := ⟨h, Extends.refl db⟩

theorem observe_keeps {wire : Wire} {record : Record} {db db' : Store} {news : Bool}
    (hdb : Consistent db) (h : Store.observe wire record db = .ok (db', news)) :
    Keeps db db' := by
  obtain ⟨_, -, h⟩ := ok_of_bind h
  obtain ⟨hup, -⟩ := observing_below h
  obtain ⟨-, ⟨observed, rfl⟩, -⟩ := Store.observing_ok h
  constructor
  · exact
      { adopted_public := hdb.adopted_public
        public_observed := fun key => (hdb.public_observed key).trans (hup key)
        candidates_followed := hdb.candidates_followed }
  · exact
      { observed := hup
        publicNames := fun _ => Below.refl _
        adopted := fun _ => Below.refl _
        followed := fun _ hk => hk
        maximum := maximum_mono hup fun _ hrow => hrow }

/-- **Candidates touch no name.**  A candidate is stored only for a followed key, after those
    already stored. -/
theorem acceptCandidate_rows {wire : Wire} {record : Record} {metadata : Option Bytes}
    {db db' : Store} {changed : Bool}
    (h : Store.acceptCandidate wire record metadata db = .ok (db', changed)) :
    db' = db ∨ record.publicKey ∈ db.followed ∧
      db' = { db with candidates := db.candidates ++ [(record, metadata)] } := by
  obtain ⟨_, -, h⟩ := ok_of_bind h
  obtain ⟨_, -, h⟩ := ok_of_bind h
  obtain ⟨_, hfollowed, h⟩ := ok_of_bind h
  obtain ⟨_, -, h⟩ := ok_of_bind h
  split at h
  · obtain ⟨rfl, -⟩ := Prod.mk.inj (Except.ok.inj h)
    exact .inl rfl
  · split at h
    · obtain ⟨rfl, -⟩ := Prod.mk.inj (Except.ok.inj h)
      exact .inl rfl
    · obtain ⟨rfl, -⟩ := Prod.mk.inj (Except.ok.inj h)
      exact .inr ⟨not_not.mp (raiseIf_ok hfollowed), rfl⟩

theorem acceptCandidate_keeps {wire : Wire} {record : Record} {metadata : Option Bytes}
    {db db' : Store} {changed : Bool} (hdb : Consistent db)
    (h : Store.acceptCandidate wire record metadata db = .ok (db', changed)) :
    Keeps db db' := by
  obtain rfl | ⟨hkey, rfl⟩ := acceptCandidate_rows h
  · exact keeps_refl hdb
  constructor
  · refine ⟨hdb.adopted_public, hdb.public_observed, ?_⟩
    intro row hrow
    obtain hrow | hrow := List.mem_append.mp hrow
    · exact hdb.candidates_followed row hrow
    · obtain rfl := List.mem_singleton.mp hrow
      exact hkey
  · exact
      { observed := fun _ => Below.refl _
        publicNames := fun _ => Below.refl _
        adopted := fun _ => Below.refl _
        followed := fun _ hk => hk
        maximum := maximum_mono (fun _ => Below.refl _)
          fun _ hrow => List.mem_append_left _ hrow }

theorem setPublic_keeps {wire : Wire} {record : Record} {db db' : Store} (hdb : Consistent db)
    (h : Store.setPublic wire record db = .ok (db', ())) : Keeps db db' := by
  obtain ⟨_, -, h⟩ := ok_of_bind h
  obtain ⟨_, hcmp, h⟩ := ok_of_bind h
  obtain ⟨⟨db₁, news⟩, hobs, h⟩ := ok_of_bind h
  obtain ⟨rfl, -⟩ := Prod.mk.inj (Except.ok.inj h)
  obtain ⟨hup, hrecord⟩ := observing_below hobs
  obtain ⟨-, ⟨observed, rfl⟩, -⟩ := Store.observing_ok hobs
  have hnames : ∀ k, Below (db.publicNames k)
      (Function.update db.publicNames record.publicKey (some record) k) :=
    below_update (below_of_compare hcmp)
  constructor
  · refine ⟨fun key => (hdb.adopted_public key).trans (hnames key), ?_, hdb.candidates_followed⟩
    intro key
    -- the new name was observed in the same transaction, the others were before
    by_cases hk : key = record.publicKey
    · subst hk
      simpa only [Function.update_self] using hrecord
    · simpa only [Function.update_of_ne hk] using (hdb.public_observed key).trans (hup key)
  · exact
      { observed := hup
        publicNames := hnames
        adopted := fun _ => Below.refl _
        followed := fun _ hk => hk
        maximum := maximum_mono hup fun _ hrow => hrow }

/-- The rows an adoption deletes were not above the observed sequence. -/
theorem adopt_keeps {wire : Wire} {record : Record} {value : Descriptor} {db db' : Store}
    (hdb : Consistent db) (h : Store.adopt wire record value db = .ok (db', ())) :
    Keeps db db' := by
  obtain ⟨_, -, h⟩ := ok_of_bind h
  obtain ⟨_, hpublic, h⟩ := ok_of_bind h
  obtain ⟨_, hcmp, h⟩ := ok_of_bind h
  obtain ⟨rfl, -⟩ := Prod.mk.inj (Except.ok.inj h)
  have hname : db.publicNames record.publicKey = some record := not_not.mp (raiseIf_ok hpublic)
  constructor
  · refine ⟨?_, hdb.public_observed, ?_⟩
    · intro key
      by_cases hk : key = record.publicKey
      · subst hk
        simpa only [Function.update_self, Option.map_some, hname] using Below.refl (some record)
      · simpa only [Function.update_of_ne hk] using hdb.adopted_public key
    · intro row hrow
      exact hdb.candidates_followed row (List.mem_filter.mp hrow).1
  · refine ⟨fun _ => Below.refl _, fun _ => Below.refl _, ?_, fun _ hk => hk, ?_⟩
    · intro key
      by_cases hk : key = record.publicKey
      · subst hk
        simpa only [Function.update_self, Option.map_some] using below_of_compare hcmp
      · simpa only [Function.update_of_ne hk] using Below.refl _
    · intro key
      refine maximum_le.mpr ⟨fun o ho => Store.observed_le_maximum ho, ?_⟩
      intro row hrow hkey
      by_cases hdone : row.1.publicKey = record.publicKey ∧ row.1.sequence ≤ record.sequence
      · obtain ⟨o, ho, hle, -⟩ := hdb.public_observed record.publicKey record hname
        rw [← hkey, hdone.1]
        exact (hdone.2.trans hle).trans (Store.observed_le_maximum ho)
      · subst hkey
        refine @candidate_le_maximum _ row ?_
        exact List.mem_filter.mpr ⟨hrow, decide_eq_true hdone⟩

theorem follow_keeps {key : Bytes} {db db' : Store} (hdb : Consistent db)
    (h : Store.follow key db = .ok (db', ())) : Keeps db db' := by
  unfold Store.follow at h
  split at h
  · cases h
  · split at h
    · obtain ⟨rfl, -⟩ := Prod.mk.inj (Except.ok.inj h)
      exact keeps_refl hdb
    · obtain ⟨rfl, -⟩ := Prod.mk.inj (Except.ok.inj h)
      constructor
      · refine ⟨hdb.adopted_public, hdb.public_observed, ?_⟩
        intro row hrow
        exact List.mem_append_left _ (hdb.candidates_followed row hrow)
      · exact
          { observed := fun _ => Below.refl _
            publicNames := fun _ => Below.refl _
            adopted := fun _ => Below.refl _
            followed := fun _ hk => List.mem_append_left _ hk
            maximum := fun _ => le_rfl }

/-! ## §6. Whole histories. -/

/-- A method's transaction succeeds where the method does, with the tables it leaves. -/
theorem ok_of_map {ε α β : Type} {x : Except ε α} {f : α → β} {b : β} (h : x.map f = .ok b) :
    ∃ a, x = .ok a ∧ f a = b := by
  cases x with
  | error e => cases h
  | ok a => exact ⟨a, rfl, Except.ok.inj h⟩

theorem method_keeps {wire : Wire} {m : Method} {db db' : Store} {flag : Option Bool}
    (hdb : Consistent db) (h : m.transaction wire db = .ok (db', flag)) : Keeps db db' := by
  cases m with
  | observe record =>
    obtain ⟨⟨_, _⟩, hm, hout⟩ := ok_of_map h
    obtain ⟨rfl, -⟩ := Prod.mk.inj hout
    exact observe_keeps hdb hm
  | acceptCandidate record metadata =>
    obtain ⟨⟨_, _⟩, hm, hout⟩ := ok_of_map h
    obtain ⟨rfl, -⟩ := Prod.mk.inj hout
    exact acceptCandidate_keeps hdb hm
  | setPublic record =>
    obtain ⟨⟨_, _⟩, hm, hout⟩ := ok_of_map h
    obtain ⟨rfl, -⟩ := Prod.mk.inj hout
    exact setPublic_keeps hdb hm
  | adopt record value =>
    obtain ⟨⟨_, _⟩, hm, hout⟩ := ok_of_map h
    obtain ⟨rfl, -⟩ := Prod.mk.inj hout
    exact adopt_keeps hdb hm
  | follow key =>
    obtain ⟨⟨_, _⟩, hm, hout⟩ := ok_of_map h
    obtain ⟨rfl, -⟩ := Prod.mk.inj hout
    exact follow_keeps hdb hm

theorem step_keeps {wire : Wire} {db db' : Store} {e : Event} (hdb : Consistent db)
    (h : step wire db e = some db') : Keeps db db' := by
  cases e with
  | call m =>
    obtain rfl := Option.some.inj h
    obtain ⟨db', flag, hok, hrun⟩ | ⟨_, -, hrun⟩ := Store.run_cases (m.transaction wire) db
    · rw [hrun]
      exact method_keeps hdb hok
    · rw [hrun]
      exact keeps_refl hdb
  | killed m =>
    obtain rfl := Option.some.inj h
    exact keeps_refl hdb
  | reopen =>
    obtain rfl := Option.some.inj h
    exact keeps_refl hdb

/-- A history from consistent tables leaves consistent tables that extend them. -/
theorem history_kept {wire : Wire} {db db' : Store} {events : List Event} (hdb : Consistent db)
    (h : run (step wire) db events = some db') : Keeps db db' := by
  induction events generalizing db with
  | nil =>
    obtain rfl := Option.some.inj h
    exact keeps_refl hdb
  | cons e rest ih =>
    obtain ⟨db₁, hstep, hrest⟩ := run_cons h
    obtain ⟨hcons, hext⟩ := step_keeps hdb hstep
    obtain ⟨hcons', hext'⟩ := ih hcons hrest
    exact ⟨hcons', hext.trans hext'⟩

/-! ## §7. The two reads of `maximum`. -/

/-- Only an adoption deletes candidates: those of its key, up to its sequence. -/
theorem method_candidates {wire : Wire} {m : Method} {db db' : Store} {flag : Option Bool}
    (h : m.transaction wire db = .ok (db', flag)) (row : Record × Option Bytes)
    (hrow : row ∈ db.candidates) :
    row ∈ db'.candidates ∨ ∃ record value, m = .adopt record value ∧
      row.1.publicKey = record.publicKey ∧ row.1.sequence ≤ record.sequence := by
  cases m with
  | observe record =>
    obtain ⟨⟨_, _⟩, hm, hout⟩ := ok_of_map h
    obtain ⟨rfl, -⟩ := Prod.mk.inj hout
    obtain ⟨-, ⟨observed, rfl⟩, -⟩ := Store.observe_ok hm
    exact .inl hrow
  | acceptCandidate record metadata =>
    obtain ⟨⟨_, _⟩, hm, hout⟩ := ok_of_map h
    obtain ⟨rfl, -⟩ := Prod.mk.inj hout
    obtain rfl | ⟨-, rfl⟩ := acceptCandidate_rows hm
    · exact .inl hrow
    · exact .inl (List.mem_append_left _ hrow)
  | setPublic record =>
    obtain ⟨⟨_, _⟩, hm, hout⟩ := ok_of_map h
    obtain ⟨rfl, -⟩ := Prod.mk.inj hout
    obtain ⟨-, observed, rfl⟩ := Store.setPublic_ok hm
    exact .inl hrow
  | adopt record value =>
    obtain ⟨⟨_, _⟩, hm, hout⟩ := ok_of_map h
    obtain ⟨rfl, -⟩ := Prod.mk.inj hout
    obtain ⟨_, -, hm⟩ := ok_of_bind hm
    obtain ⟨_, -, hm⟩ := ok_of_bind hm
    obtain ⟨_, -, hm⟩ := ok_of_bind hm
    obtain ⟨rfl, -⟩ := Prod.mk.inj (Except.ok.inj hm)
    by_cases hdone : row.1.publicKey = record.publicKey ∧ row.1.sequence ≤ record.sequence
    · exact .inr ⟨record, value, rfl, hdone⟩
    · exact .inl (List.mem_filter.mpr ⟨hrow, decide_eq_true hdone⟩)
  | follow key =>
    obtain ⟨⟨_, _⟩, hm, hout⟩ := ok_of_map h
    obtain ⟨rfl, -⟩ := Prod.mk.inj hout
    obtain ⟨followed, rfl⟩ := Store.follow_ok hm
    exact .inl hrow

theorem step_candidates {wire : Wire} {db db' : Store} {e : Event} (h : step wire db e = some db')
    (row : Record × Option Bytes) (hrow : row ∈ db.candidates) :
    row ∈ db'.candidates ∨ ∃ record value, e = .call (.adopt record value) ∧
      row.1.publicKey = record.publicKey ∧ row.1.sequence ≤ record.sequence := by
  cases e with
  | call m =>
    obtain rfl := Option.some.inj h
    obtain ⟨db', flag, hok, hrun⟩ | ⟨_, -, hrun⟩ := Store.run_cases (m.transaction wire) db
    · rw [hrun]
      obtain hkept | ⟨record, value, rfl, hdone⟩ := method_candidates hok row hrow
      · exact .inl hkept
      · exact .inr ⟨record, value, rfl, hdone⟩
    · rw [hrun]
      exact .inl hrow
  | killed m =>
    obtain rfl := Option.some.inj h
    exact .inl hrow
  | reopen =>
    obtain rfl := Option.some.inj h
    exact .inl hrow

/-- A candidate stays, through any history, until a record of its key at its sequence or above is
    adopted. -/
theorem history_candidates {wire : Wire} {db db' : Store} {events : List Event}
    (h : run (step wire) db events = some db') (row : Record × Option Bytes)
    (hrow : row ∈ db.candidates) :
    row ∈ db'.candidates ∨ ∃ record value, .call (.adopt record value) ∈ events ∧
      row.1.publicKey = record.publicKey ∧ row.1.sequence ≤ record.sequence := by
  induction events generalizing db with
  | nil =>
    obtain rfl := Option.some.inj h
    exact .inl hrow
  | cons e rest ih =>
    obtain ⟨db₁, hstep, hrest⟩ := run_cons h
    obtain hkept | ⟨record, value, rfl, hdone⟩ := step_candidates hstep row hrow
    · obtain hkept | ⟨record, value, hmem, hdone⟩ := ih hrest hkept
      · exact .inl hkept
      · exact .inr ⟨record, value, List.mem_cons_of_mem _ hmem, hdone⟩
    · exact .inr ⟨record, value, List.mem_cons_self, hdone⟩

/-- **The store over every history.**  Tables reached by any history of the methods are
    consistent; whatever comes later, observed rows and the `maximum` of the tables only move up,
    and an observed sequence keeps its value; a candidate changes no name and is stored for
    followed keys only; and a method that raises changes nothing.

    A call of `maximum` reads twice.  It returns less than an earlier call only where the observed
    row rose between its own two reads, to what the earlier call returned at least, and where a
    record above the one it had read was adopted there. -/
theorem store_invariants (wire : Wire) (events more : List Event) (db db' : Store)
    (hreached : run (step wire) Store.new events = some db)
    (hlater : run (step wire) db more = some db') :
    Consistent db ∧ (∀ key, Below ((db.adopted key).map (·.1)) (db.observed key)) ∧
      Extends db db' ∧
      (∀ record metadata, ∃ rows,
        ((Store.acceptCandidate wire record metadata).run db).1 =
            { db with candidates := db.candidates ++ rows } ∧
          ∀ row ∈ rows, row.1.publicKey ∈ db.followed) ∧
      (∀ (m : Method) (e : Failure), ((m.transaction wire).run db).2 = .error e →
        ((m.transaction wire).run db).1 = db) ∧
      -- an earlier call reads `first` and `db`, a later one `db'` and `second`
      ∀ (first second : Store) (key : Bytes) (past before between : List Event),
        run (step wire) Store.new past = some first → run (step wire) first before = some db →
        run (step wire) db' between = some second →
        first.maximumOf db key ≤ max (db'.maximumOf second key) (level (second.observed key)) ∧
          ((∀ record value, .call (.adopt record value) ∈ between → record.publicKey = key →
              record.sequence ≤ level (db'.observed key)) →
            first.maximumOf db key ≤ db'.maximumOf second key) := by
  have hdb := (history_kept consistent_new hreached).1
  obtain ⟨hdb', hext⟩ := history_kept hdb hlater
  refine ⟨hdb, hdb.adopted_observed, hext, ?_, ?_, ?_⟩
  · intro record metadata
    obtain ⟨db₁, changed, hok, hrun⟩ | ⟨_, -, hrun⟩ :=
      Store.run_cases (Store.acceptCandidate wire record metadata) db
    · rw [hrun]
      obtain rfl | ⟨hkey, rfl⟩ := acceptCandidate_rows hok
      · exact ⟨[], by simp, by simp⟩
      · exact ⟨[(record, metadata)], rfl, by simpa using hkey⟩
    · rw [hrun]
      exact ⟨[], by simp, by simp⟩
  · intro m e herror
    obtain ⟨_, _, -, hrun⟩ | ⟨_, -, hrun⟩ := Store.run_cases (m.transaction wire) db
    · rw [hrun] at herror
      cases herror
    · rw [hrun]
  · intro first second key past before between hpast hbefore hbetween
    have hfirst := (history_kept (history_kept consistent_new hpast).1 hbefore).2
    have hearlier : first.maximumOf db key ≤ db'.maximum key :=
      (maximumOf_le (hfirst.observed key)).trans (hext.maximum key)
    refine ⟨?_, fun hadopted => ?_⟩
    · have hsecond := (history_kept hdb' hbetween).2.maximum key
      exact (hearlier.trans hsecond).trans (maximum_le_maximumOf db' second key)
    · refine hearlier.trans (maximum_le_of_candidates fun row hrow hkey => ?_)
      obtain hkept | ⟨record, value, hmem, hsame, hle⟩ := history_candidates hbetween row hrow
      · exact .inl hkept
      · exact .inr (hle.trans (hadopted record value hmem (hsame.symm.trans hkey)))

/-- A verifier that accepts what it is asked about; the rows below are signed by nobody. -/
def demoWire : Wire where
  check _ _ _ := true
  origins := .ok

def demoRecord (seq : Nat) : Record :=
  ⟨List.replicate 32 7, seq, List.replicate 20 (UInt8.ofNat seq), List.replicate 64 0⟩

/-- A name is public and a newer candidate waits; a stranger's transaction is killed. -/
def demoPending : List Event :=
  [.call (.follow (List.replicate 32 7)), .call (.setPublic (demoRecord 100)), .reopen,
    .killed (.observe (demoRecord 103)), .call (.acceptCandidate (demoRecord 102) none)]

/-- The candidate becomes the name and is adopted, after an attempt to go back. -/
def demoAdopted : List Event :=
  [.call (.setPublic (demoRecord 99)), .call (.setPublic (demoRecord 102)),
    .call (.adopt (demoRecord 102) ⟨List.replicate 20 1, none, none⟩)]

/-- The tables while the candidate waits. -/
def demoStore : Store := (run (step demoWire) Store.new demoPending).getD Store.new

/-- The adoption deletes the only candidate, and `maximum` stays where it was, for a call after it
    too. -/
theorem demoAdopted_extends :
    demoStore.candidates ≠ [] ∧ ∃ db', run (step demoWire) demoStore demoAdopted = some db' ∧
      db'.candidates = [] ∧ Extends demoStore db' ∧
      ∀ key, demoStore.maximumOf demoStore key ≤ db'.maximumOf db' key := by
  have hreached : run (step demoWire) Store.new demoPending = some demoStore :=
    run_getD (by decide +kernel)
  have hlater : run (step demoWire) demoStore demoAdopted = some _ := run_getD (by decide +kernel)
  obtain ⟨-, -, hext, -, -, hcalls⟩ := store_invariants demoWire _ _ _ _ hreached hlater
  refine ⟨by decide +kernel, _, hlater, by decide +kernel, hext, fun key => ?_⟩
  exact (hcalls _ _ key _ [] [] hreached rfl rfl).2 (by simp)

/-- A call that reads the observed row before the adoption and the candidates after it returns 100,
    where an earlier call returned 102. -/
theorem maximum_decreases :
    ∃ db db', run (step demoWire) Store.new demoPending = some db ∧
      run (step demoWire) db demoAdopted = some db' ∧
      db.maximumOf db (List.replicate 32 7) = 102 ∧
      db.maximumOf db' (List.replicate 32 7) = 100 := by
  have hreached : run (step demoWire) Store.new demoPending = some demoStore :=
    run_getD (by decide +kernel)
  have hlater : run (step demoWire) demoStore demoAdopted = some _ := run_getD (by decide +kernel)
  exact ⟨_, _, hreached, hlater, by decide +kernel, by decide +kernel⟩

end My98.Torrent.Tables
