/-
  My98.Web.RecordStore — the browser's durable high-water marks
  (`src/disk/web/torrent-records.js`: `cachedRecord`, `observeRecord`;
  `src/disk/web/torrent-store.js`: `clearTorrentCache`).

  One IndexedDB database is shared by every tab.  Its stores `names` and `locations` hold at most
  one record a key, as the plain object that was put, and whoever reads it verifies it AGAIN.

  `check_asJson` says that reading back gives the record that was put; `observeRecord_spec` says
  what one read-compare-write transaction can do, and everything about the store follows from it:
  a stored record is only ever replaced by one with a higher sequence.
-/
import Mathlib.Algebra.Order.Ring.Nat
import Mathlib.Tactic.Common
import My98.Web.TorrentProtocol

namespace My98.Web

open My98.Lib My98.Torrent

/-! ## §1. Verifying either kind of record. -/

/-- What the page supplies: the Rust verifier and `URL`. -/
structure Checks where
  verify : Verifier
  parse : UrlParser

/-- `(locations ? verifyLocations : verifyRecord)(value, publicKey, verifySignature)`. -/
def Checks.check (c : Checks) (locations : Bool) (value : Json) (key : String) :
    Except Fail WebRecord :=
  if locations then verifyLocations c.verify c.parse value key
  else verifyRecord c.verify value key

/-- The salt and the last field of the object, which tell the two kinds apart. -/
def Contents.field : Contents → String × Json
  | .infoHash text => ("infoHash", .str text)
  | .origins list => ("origins", .arr (list.map .str))

def Contents.salt : Contents → Bytes
  | .infoHash _ => publicationSalt
  | .origins _ => locationsSalt

/-- The object that is kept. -/
def WebRecord.asJson (r : WebRecord) : Json :=
  .obj [("publicKey", .str r.publicKey), ("sequence", .int r.sequence), r.contents.field,
    ("signature", .str r.signature), ("salt", .str (hex r.contents.salt))]

theorem checkOrigin_ok {parse : UrlParser} {previous : Option String} {item : Json}
    {origin : String} (h : checkOrigin parse previous item = .ok origin) : item = .str origin := by
  unfold checkOrigin at h
  split at h
  · split at h
    · split at h
      · cases h
      · split at h
        · rw [Except.ok.inj h]
        · cases h
    · cases h
  · cases h

/-- The accepted origins are the items of the array. -/
theorem checkOrigins_ok {parse : UrlParser} {items : List Json} :
    ∀ {previous : Option String} {origins : List String},
      checkOrigins parse previous items = .ok origins → items = origins.map .str := by
  induction items with
  | nil =>
    intro previous origins h
    obtain rfl := Except.ok.inj h
    rfl
  | cons item items ih =>
    intro previous origins h
    obtain ⟨origin, horigin, h⟩ := ok_of_bind h
    obtain ⟨others, hothers, h⟩ := ok_of_bind h
    obtain rfl := Except.ok.inj h
    rw [checkOrigin_ok horigin, ih hothers]
    rfl

/-- A record that was accepted, in the shape it is kept in. -/
structure Verified (c : Checks) (locations : Bool) (key : String) (r : WebRecord) : Prop where
  publicKey : r.publicKey = key
  accepted : c.check locations r.asJson key = .ok r

section AsJson

variable {key signature : String} {seq : Nat} {contents : Contents}

@[simp] theorem asJson_publicKey :
    (WebRecord.asJson ⟨key, seq, contents, signature⟩).text? "publicKey" = some key := rfl

@[simp] theorem asJson_sequence :
    (WebRecord.asJson ⟨key, seq, contents, signature⟩).get? "sequence" = some (.int seq) := rfl

@[simp] theorem asJson_safeSequence (h : 1 ≤ seq ∧ seq ≤ maxSequence) :
    safeSequence (WebRecord.asJson ⟨key, seq, contents, signature⟩) = some seq := by
  unfold safeSequence
  rw [asJson_sequence]
  dsimp only
  rw [if_pos (by omega)]
  rfl

theorem asJson_keys :
    (WebRecord.asJson ⟨key, seq, contents, signature⟩).keys =
      ["publicKey", "sequence", contents.field.1, "signature", "salt"] := rfl

end AsJson

/-- A field that holds canonical text. -/
theorem hexField_of_text {value : Json} {name : String} {b : Bytes} {n : Nat}
    (h : value.text? name = some (hex b)) (hlen : b.length = n) :
    hexField value name n = some b := by
  unfold hexField
  rw [h, ← hlen]
  exact unhex_hex b

/-- A publication with a good signature, spelled canonically. -/
theorem verifyRecord_signed {verify : Verifier} {key infoHash signature : Bytes} {seq : Nat}
    (hkey : key.length = 32) (hih : infoHash.length = 20) (hsig : signature.length = 64)
    (hseq : 1 ≤ seq ∧ seq ≤ maxSequence)
    (hcheck : verify key (publicationPayload seq infoHash) signature = true) :
    verifyRecord verify
        (WebRecord.asJson ⟨hex key, seq, .infoHash (hex infoHash), hex signature⟩) (hex key) =
      .ok ⟨hex key, seq, .infoHash (hex infoHash), hex signature⟩ := by
  have hkeys : keysAre (WebRecord.asJson ⟨hex key, seq, .infoHash (hex infoHash),
      hex signature⟩) recordKeys = true := by
    simp [keysAre, asJson_keys, Contents.field, recordKeys]
  have hsalt : (WebRecord.asJson ⟨hex key, seq, .infoHash (hex infoHash),
      hex signature⟩).text? "salt" = some (hex publicationSalt) := rfl
  -- Every field reads back as the bytes it was made from.
  unfold verifyRecord
  rw [asJson_safeSequence hseq, hexField_of_text asJson_publicKey hkey,
    hexField_of_text (b := signature) rfl hsig, hexField_of_text (b := infoHash) rfl hih]
  simp [hkeys, hsalt, hcheck]

theorem verifyRecord_asJson {verify : Verifier} {value : Json} {key : String} {r : WebRecord}
    (h : verifyRecord verify value key = .ok r) :
    r.publicKey = key ∧ verifyRecord verify r.asJson key = .ok r := by
  unfold verifyRecord at h
  split at h
  next seq hfields hseq =>
    simp only [Bool.and_eq_true, decide_eq_true_eq] at hfields
    obtain ⟨⟨-, hpk⟩, -⟩ := hfields
    split at h
    next keyBytes signature infoHash hkey hsig hih =>
      split at h
      next hcheck =>
        obtain rfl := Except.ok.inj h
        have htext := hexField_text hkey
        rw [hpk] at htext
        obtain rfl := Option.some.inj htext
        exact ⟨rfl, verifyRecord_signed (hexField_length hkey) (hexField_length hih)
          (hexField_length hsig) (safeSequence_range hseq) hcheck⟩
      · cases h
    · cases h
  · cases h

theorem verifyLocations_asJson {verify : Verifier} {parse : UrlParser} {value : Json}
    {key : String} {r : WebRecord} (h : verifyLocations verify parse value key = .ok r) :
    r.publicKey = key ∧ verifyLocations verify parse r.asJson key = .ok r := by
  unfold verifyLocations at h
  split at h
  next seq item items hfields hseq hitems =>
    simp only [Bool.and_eq_true, decide_eq_true_eq] at hfields
    obtain ⟨⟨-, hpk⟩, -⟩ := hfields
    obtain ⟨origins, horigins, h⟩ := ok_of_bind h
    split at h
    · cases h
    next hsize =>
      split at h
      next keyBytes signature hkey hsig =>
        split at h
        next hcheck =>
          obtain rfl := Except.ok.inj h
          have htext := hexField_text hkey
          rw [hpk] at htext
          obtain rfl := Option.some.inj htext
          refine ⟨rfl, ?_⟩
          have hmap := checkOrigins_ok horigins
          have hitems' : originItems (WebRecord.asJson ⟨hex keyBytes, seq, .origins origins,
              hex signature⟩) = some (item :: items) := by
            rw [hmap]
            rfl
          have hkeys : keysAre (WebRecord.asJson ⟨hex keyBytes, seq, .origins origins,
              hex signature⟩) locationsKeys = true := by
            simp [keysAre, asJson_keys, Contents.field, locationsKeys]
          have hsalt : (WebRecord.asJson ⟨hex keyBytes, seq, .origins origins,
              hex signature⟩).text? "salt" = some (hex locationsSalt) := rfl
          unfold verifyLocations
          rw [asJson_safeSequence (safeSequence_range hseq), hitems',
            hexField_of_text asJson_publicKey (hexField_length hkey),
            hexField_of_text (b := signature) rfl (hexField_length hsig)]
          simp only [hkeys, hsalt, asJson_publicKey, decide_true, Bool.and_self, horigins]
          show (if 1000 < (originsWire origins).length then _ else _) = _
          rw [if_neg hsize, if_pos hcheck]
        · cases h
      · cases h
  · cases h

/-- **What was accepted is accepted again** in the shape it is kept in. -/
theorem check_asJson {c : Checks} {locations : Bool} {value : Json} {key : String} {r : WebRecord}
    (h : c.check locations value key = .ok r) : Verified c locations key r := by
  unfold Checks.check at h
  cases locations with
  | false =>
    obtain ⟨hkey, hok⟩ := verifyRecord_asJson h
    exact ⟨hkey, hok⟩
  | true =>
    obtain ⟨hkey, hok⟩ := verifyLocations_asJson h
    exact ⟨hkey, hok⟩

/-! ## §2. The database. -/

/-- How IndexedDB fails: `openTorrentDatabase` rejects (no IndexedDB, a tab that blocks the
    upgrade, the quota, anything else), or the transaction aborts (the quota, no cause given, an
    exception of the browser's own). -/
inductive Fault where
  | missing
  | blocked
  | openFull
  | openFailed
  | full
  | aborted
  | exception (name : String)
  deriving DecidableEq, Repr

def Fault.error : Fault → Fail
  | .missing => ⟨"STORAGE_ERROR", "IndexedDB is unavailable"⟩
  | .blocked => ⟨"STORAGE_BLOCKED", "Close other my98 tabs to update torrent storage"⟩
  | .openFull => ⟨"STORAGE_FULL", "Not enough browser storage for this torrent"⟩
  | .openFailed => ⟨"STORAGE_ERROR", "Torrent storage is unavailable"⟩
  | .full => ⟨"STORAGE_FULL", "Not enough browser storage to preserve the publication sequence"⟩
  | .aborted => ⟨"STORAGE_ERROR", "Could not preserve the publication sequence"⟩
  | .exception name => ⟨"", name⟩

theorem Fault.code_ne (f : Fault) : f.error.code ≠ "PUBLICATION_CONFLICT" := by
  cases f <;> simp [Fault.error]

structure Database where
  names : String → Option Json
  locations : String → Option Json
  /-- The ciphertext cache: the keys `[hash, index]` of `pieces` and the hashes of `metadata`. -/
  pieces : List (String × Nat)
  metadata : List String

/-- `objectStore(locations ? "locations" : "names").get(publicKey)`. -/
def Database.get (db : Database) (locations : Bool) (key : String) : Option Json :=
  if locations then db.locations key else db.names key

/-- `store.put(record)`; the key path of both stores is `publicKey`. -/
def Database.put (db : Database) (locations : Bool) (r : WebRecord) : Database :=
  if locations then { db with locations := Function.update db.locations r.publicKey r.asJson }
  else { db with names := Function.update db.names r.publicKey r.asJson }

/-- `clearTorrentCache(hash)`; it throws for a hash that is none. -/
def Database.clear (db : Database) : Option String → Database
  | none => { db with pieces := [], metadata := [] }
  | some hash =>
    if (unhex hash 20).isSome then
      { db with
        pieces := db.pieces.filter fun p => p.1 ≠ hash
        metadata := db.metadata.filter (· ≠ hash) }
    else db

/-- `cachedRecord(publicKey, verifySignature, locations)`. -/
def cachedRecord (c : Checks) (db : Database) (locations : Bool) (key : String)
    (fault : Option Fault) : Except Fail (Option WebRecord) :=
  match unhex key 32, fault, db.get locations key with
  | none, _, _ => .error (invalid "Invalid canonical hexadecimal value")
  | some _, some f, _ => .error f.error
  | some _, none, none => .ok none
  | some _, none, some value => (c.check locations value key).map some

/-- The read-compare-write transaction of `observeRecord`. -/
def transact (c : Checks) (db : Database) (locations : Bool) (key : String) (record : WebRecord) :
    Except Fail Database := do
  let previous ← match db.get locations key with
    | none => pure none
    | some value => some <$> c.check locations value key
  if ← compareRecords previous record then return db.put locations record else return db

/-- The promise of a transaction: `oncomplete`, or `onabort`. -/
def committed (db : Database) (record : WebRecord) :
    Except Fail Database → Database × Except Fail WebRecord
  | .error e => (db, .error e)
  | .ok db' => (db', .ok record)

/-- `observeRecord(value, publicKey, verifySignature, locations)`.  A transaction that aborts, for
    whatever reason, leaves the database as it was. -/
def observeRecord (c : Checks) (db : Database) (locations : Bool) (value : Json) (key : String)
    (fault : Option Fault) : Database × Except Fail WebRecord :=
  match c.check locations value key, fault with
  | .error e, _ => (db, .error e)
  | .ok _, some f => (db, .error f.error)
  | .ok record, none => committed db record (transact c db locations key record)

/-! ## §3. What the store holds. -/

/-- The record under a key, as every reader sees it. -/
def Database.durable (c : Checks) (db : Database) (locations : Bool) (key : String) :
    Option WebRecord :=
  (db.get locations key).bind fun value => (c.check locations value key).toOption

/-- Every stored object is a verified record. -/
def Good (c : Checks) (db : Database) : Prop :=
  ∀ locations key value, db.get locations key = some value →
    ∃ r, value = r.asJson ∧ Verified c locations key r

/-- The same record, or one with a higher sequence. -/
def Newer (old new : Option WebRecord) : Prop :=
  ∀ a, old = some a → ∃ b, new = some b ∧ (b = a ∨ a.sequence < b.sequence)

/-- The same sequence, and something else under it. -/
def Conflicting (a b : WebRecord) : Prop :=
  a.sequence = b.sequence ∧ a.contents ≠ b.contents

instance : DecidableRel Conflicting := fun a b =>
  inferInstanceAs (Decidable (a.sequence = b.sequence ∧ a.contents ≠ b.contents))

theorem Conflicting.symm {a b : WebRecord} (h : Conflicting a b) : Conflicting b a :=
  ⟨h.1.symm, fun heq => h.2 heq.symm⟩

theorem Newer.refl (a : Option WebRecord) : Newer a a := fun r h => ⟨r, h, .inl rfl⟩

theorem Newer.trans {a b d : Option WebRecord} (hab : Newer a b) (hbd : Newer b d) :
    Newer a d := by
  intro x hx
  obtain ⟨y, hy, hxy⟩ := hab x hx
  obtain ⟨z, hz, hyz⟩ := hbd y hy
  refine ⟨z, hz, ?_⟩
  obtain rfl | hxy := hxy
  · exact hyz
  · obtain rfl | hyz := hyz
    · exact .inr hxy
    · exact .inr (by omega)

section Store

variable {c : Checks} {db : Database} {locations : Bool} {key : String}

theorem Good.durable_eq (hgood : Good c db) {value : Json}
    (h : db.get locations key = some value) :
    ∃ r, db.durable c locations key = some r ∧ c.check locations value key = .ok r ∧
      Verified c locations key r := by
  obtain ⟨r, rfl, hr⟩ := hgood locations key value h
  refine ⟨r, ?_, hr.accepted, hr⟩
  simp [Database.durable, h, hr.accepted, Except.toOption]

theorem durable_of_none (h : db.get locations key = none) :
    db.durable c locations key = none := by
  simp [Database.durable, h]

theorem Good.durable_verified (hgood : Good c db) {r : WebRecord}
    (h : db.durable c locations key = some r) : Verified c locations key r := by
  cases hget : db.get locations key with
  | none =>
    rw [durable_of_none hget] at h
    cases h
  | some value =>
    obtain ⟨r', hr', -, hv⟩ := hgood.durable_eq hget
    rw [h] at hr'
    obtain rfl := Option.some.inj hr'
    exact hv

theorem get_put {r : WebRecord} {locations' : Bool} {key' : String} :
    (db.put locations r).get locations' key' =
      if locations' = locations ∧ key' = r.publicKey then some r.asJson
      else db.get locations' key' := by
  cases locations <;> cases locations' <;>
    simp [Database.put, Database.get, Function.update_apply]

theorem durable_put (db : Database) {r : WebRecord} (hr : Verified c locations key r) :
    (db.put locations r).durable c locations key = some r := by
  simp [Database.durable, get_put, hr.publicKey, hr.accepted, Except.toOption]

theorem Good.put (hgood : Good c db) {r : WebRecord} (hr : Verified c locations key r) :
    Good c (db.put locations r) := by
  intro locations' key' value h
  rw [get_put] at h
  split at h
  next heq =>
    obtain ⟨rfl, rfl⟩ := heq
    obtain rfl := Option.some.inj h
    rw [← hr.publicKey] at hr
    exact ⟨r, rfl, hr⟩
  next => exact hgood locations' key' value h

@[simp] theorem get_clear (hash : Option String) :
    (db.clear hash).get locations key = db.get locations key := by
  cases hash with
  | none => rfl
  | some hash =>
    unfold Database.clear
    dsimp only
    split <;> rfl

/-- **A read** gives the durable record; it fails only with a fault or for a key that is none. -/
theorem cachedRecord_spec (hgood : Good c db) (locations : Bool) (key : String)
    (fault : Option Fault) :
    cachedRecord c db locations key fault = .ok (db.durable c locations key) ∨
      (∃ f, fault = some f ∧ cachedRecord c db locations key fault = .error f.error) ∨
      unhex key 32 = none ∧ cachedRecord c db locations key fault =
        .error (invalid "Invalid canonical hexadecimal value") := by
  unfold cachedRecord
  split
  next hkey => exact .inr (.inr ⟨hkey, rfl⟩)
  next f _ => exact .inr (.inl ⟨f, rfl, rfl⟩)
  next _ _ _ hget =>
    rw [durable_of_none hget]
    exact .inl rfl
  next _ _ value _ hget =>
    obtain ⟨r, hr, hcheck, -⟩ := hgood.durable_eq hget
    rw [hr, hcheck]
    exact .inl rfl

/-- The transaction compares with the durable record. -/
theorem transact_eq (hgood : Good c db) (record : WebRecord) :
    transact c db locations key record =
      (compareRecords (db.durable c locations key) record >>= fun news =>
        if news then pure (db.put locations record) else pure db) := by
  unfold transact
  cases hget : db.get locations key with
  | none =>
    rw [durable_of_none hget]
    rfl
  | some value =>
    obtain ⟨r, hr, hcheck, -⟩ := hgood.durable_eq hget
    rw [hr]
    dsimp only
    rw [hcheck]
    rfl

/-- How a verified record compares with the durable one. -/
theorem compareRecords_cases {previous : Option WebRecord} {r : WebRecord}
    (hkey : ∀ d, previous = some d → d.publicKey = r.publicKey) :
    (compareRecords previous r = .ok true ∧ ∀ d, previous = some d → d.sequence < r.sequence) ∨
      (∃ d, previous = some d ∧ d.sequence = r.sequence ∧ d.contents = r.contents ∧
        compareRecords previous r = .ok false) ∨
      ∃ d m, previous = some d ∧ (r.sequence < d.sequence ∨ Conflicting d r) ∧
        compareRecords previous r = .error (conflict m) := by
  cases previous with
  | none =>
    refine .inl ⟨rfl, ?_⟩
    intro d hd
    cases hd
  | some d =>
    unfold compareRecords
    dsimp only
    rw [if_neg (not_not.mpr (hkey d rfl))]
    by_cases hlt : r.sequence < d.sequence
    · rw [if_pos hlt]
      exact .inr (.inr ⟨d, _, rfl, .inl hlt, rfl⟩)
    · rw [if_neg hlt]
      by_cases heq : r.sequence = d.sequence
      · rw [if_pos heq]
        by_cases hc : r.contents = d.contents
        · rw [if_neg (not_not.mpr hc)]
          exact .inr (.inl ⟨d, rfl, heq.symm, hc.symm, rfl⟩)
        · rw [if_pos hc]
          exact .inr (.inr ⟨d, _, rfl, .inr ⟨heq.symm, fun h => hc h.symm⟩, rfl⟩)
      · rw [if_neg heq]
        refine .inl ⟨rfl, ?_⟩
        intro d' hd'
        obtain rfl := Option.some.inj hd'
        omega

/-- What `observeRecord` can do with a value that verifies as `r`. -/
inductive Observed (c : Checks) (db : Database) (locations : Bool) (key : String) (r : WebRecord)
    (fault : Option Fault) : Database × Except Fail WebRecord → Prop where
  /-- The storage failed. -/
  | faulted (f : Fault) (h : fault = some f) :
      Observed c db locations key r fault (db, .error f.error)
  /-- It is older than the durable record, or contradicts it. -/
  | conflicting (d : WebRecord) (m : String) (hd : db.durable c locations key = some d)
      (h : r.sequence < d.sequence ∨ Conflicting d r) :
      Observed c db locations key r fault (db, .error (conflict m))
  /-- It is the durable record, up to its signature. -/
  | known (d : WebRecord) (hd : db.durable c locations key = some d)
      (hseq : d.sequence = r.sequence) (hcontents : d.contents = r.contents) :
      Observed c db locations key r fault (db, .ok r)
  /-- It is newer and is put in the place of the durable record. -/
  | stored (hd : ∀ d, db.durable c locations key = some d → d.sequence < r.sequence) :
      Observed c db locations key r fault (db.put locations r, .ok r)

theorem transact_observed (hgood : Good c db) {r : WebRecord} (hr : Verified c locations key r)
    (fault : Option Fault) :
    Observed c db locations key r fault (committed db r (transact c db locations key r)) := by
  rw [transact_eq hgood]
  have hkey : ∀ d, db.durable c locations key = some d → d.publicKey = r.publicKey := by
    intro d hd
    rw [(hgood.durable_verified hd).publicKey, hr.publicKey]
  obtain ⟨hcmp, hlt⟩ | ⟨d, hd, hseq, hcontents, hcmp⟩ | ⟨d, m, hd, hbad, hcmp⟩ :=
    compareRecords_cases hkey
  · rw [hcmp]
    exact .stored hlt
  · rw [hcmp]
    exact .known d hd hseq hcontents
  · rw [hcmp]
    exact .conflicting d m hd hbad

/-- **One call of `observeRecord`.** -/
theorem observeRecord_spec (hgood : Good c db) (value : Json) (fault : Option Fault) :
    (∃ e, c.check locations value key = .error e ∧
      observeRecord c db locations value key fault = (db, .error e)) ∨
    ∃ r, c.check locations value key = .ok r ∧
      Observed c db locations key r fault (observeRecord c db locations value key fault) := by
  unfold observeRecord
  cases hcheck : c.check locations value key with
  | error e => exact .inl ⟨e, rfl, rfl⟩
  | ok r =>
    refine .inr ⟨r, rfl, ?_⟩
    cases fault with
    | some f => exact .faulted f rfl
    | none => exact transact_observed hgood (check_asJson hcheck) none

/-- A record that verifies is never refused. -/
theorem observeRecord_record (hgood : Good c db) {r : WebRecord} (hr : Verified c locations key r)
    (fault : Option Fault) :
    Observed c db locations key r fault (observeRecord c db locations r.asJson key fault) := by
  obtain ⟨e, he, -⟩ | ⟨r', hr', h⟩ := observeRecord_spec hgood r.asJson fault
  · rw [hr.accepted] at he
    cases he
  · rw [hr.accepted] at hr'
    obtain rfl := Except.ok.inj hr'
    exact h

/-- **One transaction** keeps the store good and moves every record forward only. -/
theorem Observed.keeps {r : WebRecord} {fault : Option Fault}
    {out : Database × Except Fail WebRecord} (hgood : Good c db) (hr : Verified c locations key r)
    (h : Observed c db locations key r fault out) :
    Good c out.1 ∧ ∀ locations' key',
      Newer (db.durable c locations' key') (out.1.durable c locations' key') := by
  cases h with
  | faulted f hf => exact ⟨hgood, fun _ _ => .refl _⟩
  | conflicting d m hd hbad => exact ⟨hgood, fun _ _ => .refl _⟩
  | known d hd hseq hcontents => exact ⟨hgood, fun _ _ => .refl _⟩
  | stored hd =>
    refine ⟨hgood.put hr, ?_⟩
    intro locations' key' a ha
    by_cases hsame : locations' = locations ∧ key' = key
    · obtain ⟨rfl, rfl⟩ := hsame
      exact ⟨r, durable_put db hr, .inr (hd a ha)⟩
    · refine ⟨a, ?_, .inl rfl⟩
      unfold Database.durable at ha ⊢
      rw [get_put, hr.publicKey, if_neg hsame]
      exact ha

/-- A call that rejects has changed nothing. -/
theorem observeRecord_rejected (hgood : Good c db) {value : Json} {fault : Option Fault} {e : Fail}
    (he : (observeRecord c db locations value key fault).2 = .error e) :
    (observeRecord c db locations value key fault).1 = db := by
  obtain ⟨e', -, h⟩ | ⟨r, -, h⟩ := observeRecord_spec hgood value fault
  · rw [h]
  · generalize observeRecord c db locations value key fault = out at h he
    cases h with
    | faulted f hf => rfl
    | conflicting d m hd hbad => rfl
    | known d hd hseq hcontents => rfl
    | stored hd => cases he

end Store

end My98.Web
