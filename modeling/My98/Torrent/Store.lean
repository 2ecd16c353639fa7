/-
  My98.Torrent.Store — the persistent tables of signed records (`store.py`).

  Every method runs in one SQLite transaction: an exception rolls it back, so a method is a
  `Transaction`, which hands the tables on only when it returns.  The tables are keyed by the
  public key; `candidates` by the public key and the sequence.

  `Store.Grows` is what no method ever undoes: the highest observed record of a key never
  disappears and its sequence never decreases.
-/
import Mathlib.Algebra.Order.Ring.Nat
import Mathlib.Tactic.Common
import My98.Torrent.Protocol

namespace My98.Torrent

open My98.Lib

/-- The tables. -/
structure Store where
  observed : Bytes → Option Record
  publicNames : Bytes → Option Record
  adopted : Bytes → Option (Record × Descriptor)
  candidates : List (Record × Option Bytes)
  followed : List Bytes
  locations : Bytes → Option Locations

/-- Empty tables. -/
def Store.new : Store :=
  { observed := fun _ => none
    publicNames := fun _ => none
    adopted := fun _ => none
    candidates := []
    followed := []
    locations := fun _ => none }

/-- One transaction: the tables after it with its result, or an exception. -/
abbrev Transaction (α : Type) := Store → Except Failure (Store × α)

/-- Run a transaction against the tables; a failure leaves them as they were. -/
def Transaction.run {α : Type} (t : Transaction α) (db : Store) : Store × Except Failure α :=
  match t db with
  | .ok (db', a) => (db', .ok a)
  | .error e => (db, .error e)

namespace Store

/-- The candidate of a key with the highest sequence. -/
def pending (db : Store) (key : Bytes) : Option Record :=
  (db.candidates.filter fun row => row.1.publicKey = key).foldl
    (fun best row =>
      match best with
      | none => some row.1
      | some r => if r.sequence < row.1.sequence then some row.1 else some r) none

/-- `max(…, key=lambda r: r.sequence, default=None)` of two optional records. -/
def later : Option Record → Option Record → Option Record
  | none, b => b
  | some a, none => some a
  | some a, some b => if a.sequence < b.sequence then some b else some a

/-! ## §1. The methods. -/

/-- `_observe`: remember a record that is news. -/
def observing (wire : Wire) (record : Record) : Transaction Bool := fun db => do
  let news ← compare wire (db.observed record.publicKey) record
  if news then
    return ({ db with observed := Function.update db.observed record.publicKey (some record) }, true)
  else
    return (db, false)

def observe (wire : Wire) (record : Record) : Transaction Bool := fun db => do
  Record.verify wire record
  observing wire record db

def acceptCandidate (wire : Wire) (record : Record) (metadata : Option Bytes) :
    Transaction Bool := fun db => do
  Record.verify wire record
  raiseIf (∃ bytes ∈ metadata, ¬ (1 ≤ bytes.length ∧ bytes.length ≤ 16384))
    (.publication "Invalid descriptor torrent metadata size")
  raiseIf (record.publicKey ∉ db.followed)
    (.publication "Publication identity is not followed")
  let changed ← compare wire (later (db.observed record.publicKey) (db.pending record.publicKey))
    record
  if (db.adopted record.publicKey).map (·.1) = some record then
    return (db, false)
  else
    match db.candidates.find? fun row =>
        row.1.publicKey = record.publicKey ∧ row.1.sequence = record.sequence with
    | some row =>
      -- the metadata that was accepted first stays
      return (db, if row.2 ≠ metadata then false else changed)
    | none => return ({ db with candidates := db.candidates ++ [(record, metadata)] }, changed)

def setPublic (wire : Wire) (record : Record) : Transaction Unit := fun db => do
  Record.verify wire record
  let _ ← compare wire (db.publicNames record.publicKey) record
  let (db, _) ← observing wire record db
  return ({ db with
    publicNames := Function.update db.publicNames record.publicKey (some record) }, ())

/-- `adopt`: the public name now has this content; candidates up to it are done. -/
def adopt (wire : Wire) (record : Record) (value : Descriptor) : Transaction Unit := fun db => do
  Record.verify wire record
  raiseIf (db.publicNames record.publicKey ≠ some record)
    (.publication "Cannot adopt a candidate before its public name is observed")
  let _ ← compare wire ((db.adopted record.publicKey).map (·.1)) record
  return ({ db with
    adopted := Function.update db.adopted record.publicKey (some (record, value))
    candidates := db.candidates.filter fun row =>
      ¬ (row.1.publicKey = record.publicKey ∧ row.1.sequence ≤ record.sequence) }, ())

def follow (key : Bytes) : Transaction Unit := fun db =>
  if key.length ≠ 32 then .error (.publication "Invalid public key")
  else if key ∈ db.followed then .ok (db, ())
  else .ok ({ db with followed := db.followed ++ [key] }, ())

/-- `maximum`: the highest sequence observed or pending.  It reads twice, each time in a
    transaction of its own: the observed row (`highest`) in the tables `first`, the candidates in
    the tables `second`. -/
def maximumOf (first second : Store) (key : Bytes) : Nat :=
  max (((first.observed key).map (·.sequence)).getD 0)
    (((second.pending key).map (·.sequence)).getD 0)

/-- `maximum` where nothing commits between the two reads. -/
def maximum (db : Store) (key : Bytes) : Nat := maximumOf db db key

def setLocations (wire : Wire) (record : Locations) : Transaction Unit := fun db => do
  Locations.verify wire record
  let news ← compare wire (db.locations record.publicKey) record
  if news then
    return ({ db with locations := Function.update db.locations record.publicKey (some record) }, ())
  else
    return (db, ())

/-! ## §2. What no method undoes. -/

/-- Observed records stay observed, at a sequence that never decreases. -/
def Grows (db db' : Store) : Prop :=
  ∀ key o, db.observed key = some o → ∃ o', db'.observed key = some o' ∧ o.sequence ≤ o'.sequence

theorem Grows.refl (db : Store) : Grows db db := fun _ o h => ⟨o, h, le_rfl⟩

theorem Grows.trans {a b d : Store} (h : Grows a b) (h' : Grows b d) : Grows a d := by
  intro key o ho
  obtain ⟨o₁, ho₁, hle₁⟩ := h key o ho
  obtain ⟨o₂, ho₂, hle₂⟩ := h' key o₁ ho₁
  exact ⟨o₂, ho₂, hle₁.trans hle₂⟩

theorem Grows.of_eq {db db' : Store} (h : db'.observed = db.observed) : Grows db db' := by
  intro key o ho
  exact ⟨o, by rw [h]; exact ho, le_rfl⟩

/-- The two ways a transaction ends. -/
theorem run_cases {α : Type} (t : Transaction α) (db : Store) :
    (∃ db' a, t db = .ok (db', a) ∧ t.run db = (db', .ok a)) ∨
      ∃ e, t db = .error e ∧ t.run db = (db, .error e) := by
  unfold Transaction.run
  cases hr : t db with
  | ok out => exact .inl ⟨out.1, out.2, rfl, rfl⟩
  | error e => exact .inr ⟨e, rfl, rfl⟩

/-- What observing a record leaves: only the observed row of its key changes, and that row is
    at least as new as the record. -/
theorem observing_ok {wire : Wire} {record : Record} {db db' : Store} {news : Bool}
    (h : observing wire record db = .ok (db', news)) :
    Grows db db' ∧ (∃ observed, db' = { db with observed := observed }) ∧
      ∃ o, db'.observed record.publicKey = some o ∧ record.sequence ≤ o.sequence := by
  obtain ⟨isNews, hcmp, h⟩ := ok_of_bind h
  cases isNews with
  | true =>
    obtain ⟨rfl, -⟩ := Prod.mk.inj (Except.ok.inj h)
    refine ⟨?_, ⟨_, rfl⟩, record, Function.update_self .., le_rfl⟩
    intro key o ho
    by_cases hk : key = record.publicKey
    · subst hk
      rw [ho] at hcmp
      refine ⟨record, Function.update_self .., ?_⟩
      obtain ⟨-, ⟨-, hlt⟩ | ⟨-, heq, -⟩⟩ := compare_ok hcmp
      · exact hlt.le
      · exact heq.le
    · exact ⟨o, by simpa [Function.update_of_ne hk] using ho, le_rfl⟩
  | false =>
    obtain ⟨rfl, -⟩ := Prod.mk.inj (Except.ok.inj h)
    refine ⟨Grows.refl _, ⟨_, rfl⟩, ?_⟩
    cases ho : db.observed record.publicKey with
    | none =>
      rw [ho] at hcmp
      cases compare_none hcmp
    | some o =>
      rw [ho] at hcmp
      obtain ⟨-, ⟨hn, -⟩ | ⟨-, heq, -⟩⟩ := compare_ok hcmp
      · cases hn
      · exact ⟨o, rfl, heq.ge⟩

theorem observe_ok {wire : Wire} {record : Record} {db db' : Store} {news : Bool}
    (h : observe wire record db = .ok (db', news)) :
    Grows db db' ∧ (∃ observed, db' = { db with observed := observed }) ∧
      ∃ o, db'.observed record.publicKey = some o ∧ record.sequence ≤ o.sequence := by
  obtain ⟨_, -, h⟩ := ok_of_bind h
  exact observing_ok h

/-- Candidates touch only their own table. -/
theorem acceptCandidate_ok {wire : Wire} {record : Record} {metadata : Option Bytes}
    {db db' : Store} {changed : Bool}
    (h : acceptCandidate wire record metadata db = .ok (db', changed)) :
    ∃ candidates, db' = { db with candidates := candidates } := by
  obtain ⟨_, -, h⟩ := ok_of_bind h
  obtain ⟨_, -, h⟩ := ok_of_bind h
  obtain ⟨_, -, h⟩ := ok_of_bind h
  obtain ⟨_, -, h⟩ := ok_of_bind h
  split at h
  · obtain ⟨rfl, -⟩ := Prod.mk.inj (Except.ok.inj h)
    exact ⟨_, rfl⟩
  · split at h
    · obtain ⟨rfl, -⟩ := Prod.mk.inj (Except.ok.inj h)
      exact ⟨_, rfl⟩
    · obtain ⟨rfl, -⟩ := Prod.mk.inj (Except.ok.inj h)
      exact ⟨_, rfl⟩

theorem setPublic_ok {wire : Wire} {record : Record} {db db' : Store}
    (h : setPublic wire record db = .ok (db', ())) :
    Grows db db' ∧ ∃ observed, db' = { db with
      observed := observed
      publicNames := Function.update db.publicNames record.publicKey (some record) } := by
  obtain ⟨_, -, h⟩ := ok_of_bind h
  obtain ⟨_, -, h⟩ := ok_of_bind h
  obtain ⟨⟨db₁, news⟩, hobs, h⟩ := ok_of_bind h
  obtain ⟨rfl, -⟩ := Prod.mk.inj (Except.ok.inj h)
  obtain ⟨hgrows, ⟨observed, rfl⟩, -⟩ := observing_ok hobs
  exact ⟨hgrows, observed, rfl⟩

/-- An adoption needs the public name, and replaces the adopted row and the candidates up to
    it. -/
theorem adopt_ok {wire : Wire} {record : Record} {value : Descriptor} {db db' : Store}
    (h : adopt wire record value db = .ok (db', ())) :
    db.publicNames record.publicKey = some record ∧ ∃ candidates, db' = { db with
      adopted := Function.update db.adopted record.publicKey (some (record, value))
      candidates := candidates } := by
  obtain ⟨_, -, h⟩ := ok_of_bind h
  obtain ⟨_, hpublic, h⟩ := ok_of_bind h
  obtain ⟨_, -, h⟩ := ok_of_bind h
  obtain ⟨rfl, -⟩ := Prod.mk.inj (Except.ok.inj h)
  exact ⟨not_not.mp (raiseIf_ok hpublic), _, rfl⟩

theorem follow_ok {key : Bytes} {db db' : Store} (h : follow key db = .ok (db', ())) :
    ∃ followed, db' = { db with followed := followed } := by
  unfold follow at h
  split at h
  · cases h
  · split at h
    · obtain ⟨rfl, -⟩ := Prod.mk.inj (Except.ok.inj h)
      exact ⟨_, rfl⟩
    · obtain ⟨rfl, -⟩ := Prod.mk.inj (Except.ok.inj h)
      exact ⟨_, rfl⟩

theorem setLocations_ok {wire : Wire} {record : Locations} {db db' : Store}
    (h : setLocations wire record db = .ok (db', ())) :
    ∃ locations, db' = { db with locations := locations } := by
  obtain ⟨_, -, h⟩ := ok_of_bind h
  obtain ⟨news, -, h⟩ := ok_of_bind h
  cases news with
  | true =>
    obtain ⟨rfl, -⟩ := Prod.mk.inj (Except.ok.inj h)
    exact ⟨_, rfl⟩
  | false =>
    obtain ⟨rfl, -⟩ := Prod.mk.inj (Except.ok.inj h)
    exact ⟨_, rfl⟩

/-- A locations record is refused as a conflict only where the stored one supersedes it. -/
theorem setLocations_conflict {wire : Wire} {record : Locations} {db : Store} {e : Failure}
    (h : setLocations wire record db = .error e) (he : e.isConflict = true) :
    ∃ l, db.locations record.publicKey = some l ∧ Supersedes l record := by
  obtain h | ⟨_, -, h⟩ := error_of_bind h
  · rw [Locations.verify_error h] at he
    cases he
  · obtain h | ⟨news, -, h⟩ := error_of_bind h
    · exact supersedes_of_compare h he
    · cases news with
      | true => cases h
      | false => cases h

/-- The next sequence will be above the observed one. -/
theorem observed_le_maximum {db : Store} {key : Bytes} {o : Record}
    (h : db.observed key = some o) : o.sequence ≤ db.maximum key := by
  unfold maximum maximumOf
  rw [h]
  exact le_max_left _ _

end Store

end My98.Torrent
