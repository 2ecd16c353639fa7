/-
  My98.Torrent.Publisher — preparing, transferring and committing a publication
  (`publisher.py`, `scripts/my98-torrent.py`).

  A publisher works on one ROOT: a record store and one journal file per identity.  Its methods
  are tasks.  Their operations are the awaited calls and the durable writes of the source, one
  write each, so that a process may be cut between any two of them.  What the network and the
  torrent engine answer is chosen by the environment (`Answer`); what the store and the journal
  answer is computed (`Root.handle`).

    • `current`          — the highest record that the DHT, the seedboxes or the store know;
    • `prepare`          — build and sign a candidate over that base, and journal it;
    • `transfer`         — offer the candidate to the seedboxes and wait for a complete copy;
    • `commit`           — check the base, publish locations and record, read back, adopt;
    • `publishLocations` — the independent locations command.
-/
import Mathlib.Algebra.Order.Ring.Nat
import Mathlib.Tactic.Common
import My98.Lib.Fiber
import My98.Torrent.Store

namespace My98.Torrent

open My98.Lib

/-! ## §1. Journals and operations. -/

/-- The `phase` of a journal. -/
inductive Phase where
  | prepared
  | transferring
  | copied
  | committing
  | complete
  | conflict
  deriving DecidableEq, Repr

/-- The journal file of one identity. -/
structure Journal where
  record : Record
  locations : Locations
  base : Option Record
  phase : Phase
  notified : List String
  deriving DecidableEq, Repr

/-- A configured seedbox. -/
structure Seedbox where
  name : String
  api : String
  deriving DecidableEq, Repr

/-- What a publisher is configured with. -/
structure Config where
  wire : Wire
  signer : Signer
  nodes : List Seedbox
  /-- How often `transfer` looks for a complete copy before its timeout. -/
  polls : Nat

/-- The publishing commands of the CLI that prepare a candidate. -/
inductive Operation where
  | publish
  | state
  | clearState
  | profile
  | clearProfile
  deriving DecidableEq, Repr

/-- The arguments of `prepare`: paths of the components to import. -/
structure Preparation where
  operation : Operation
  disk : Option String
  state : Option String
  profile : Option String
  clearProfile : Bool
  deriving DecidableEq, Repr

/-- What a seedbox answers when it is offered a candidate.  A status from 400 on is a client
    error like an unreachable seedbox, except for 409, whose body is read and raised. -/
inductive Admission where
  | unreachable
  | conflicting (body : Except Failure String)
  /-- A 409 whose body could not be read: the client error is swallowed. -/
  | interrupted
  | status (code : Nat)

/-- The operations of a publisher: its journal and store, its files, the network. -/
inductive Op where
  | journal
  | save (journal : Journal)
  | follow
  | highest
  | observe (record : Record)
  | maximum
  | acceptCandidate (record : Record) (metadata : Bytes)
  | setPublic (record : Record)
  | adopt (record : Record) (value : Descriptor)
  | knownLocations
  | setLocations (locations : Locations)
  | importFile (path : String)
  | importDescriptor (value : Descriptor)
  | existing (base : Record)
  | validateDisk (infoHash : Bytes)
  | fileHash (infoHash : Bytes)
  | validatePublication (record : Record)
  | metadata (infoHash : Bytes)
  | descriptor (infoHash : Bytes)
  | seed (record : Record) (value : Descriptor)
  | candidates (node : Seedbox) (record : Record)
  | completeNode
  | now
  | gather
  | resolve
  | resolveLocations
  | put (record : Record)
  | putLocations (locations : Locations)
  deriving DecidableEq

@[reducible] def Op.Ret : Op → Type
  | .journal => Option Journal
  | .save _ => Unit
  | .follow => Except Failure Unit
  | .highest => Option Record
  | .observe _ => Except Failure Bool
  | .maximum => Nat
  | .acceptCandidate _ _ => Except Failure Bool
  | .setPublic _ => Except Failure Unit
  | .adopt _ _ => Except Failure Unit
  | .knownLocations => Option Locations
  | .setLocations _ => Except Failure Unit
  | .importFile _ => Except Failure Bytes
  | .importDescriptor _ => Except Failure Bytes
  | .existing _ => Except Failure Descriptor
  | .validateDisk _ => Except Failure Unit
  | .fileHash _ => Except Failure Bytes
  | .validatePublication _ => Except Failure Unit
  | .metadata _ => Except Failure Bytes
  | .descriptor _ => Except Failure Descriptor
  | .seed _ _ => Except Failure Unit
  | .candidates _ _ => Admission
  | .completeNode => Option String
  | .now => Nat
  | .gather => Except Failure (List Record)
  | .resolve => Except Failure (Option Record)
  | .resolveLocations => Except Failure (Option Locations)
  | .put _ => Except Failure Unit
  | .putLocations _ => Except Failure Unit

abbrev Act := Fiber Op Op.Ret Failure

abbrev perform (op : Op) : Act op.Ret := Fiber.perform op

abbrev raising {α : Type} (t : Act (Except Failure α)) : Act α := Fiber.raising t

/-! ## §2. The methods. -/

/-- The `by_sequence` loop of `current`, over records sorted by sequence. -/
def agreement : List Record → (Nat → Option Record) → Except Failure Unit
  | [], _ => .ok ()
  | record :: rest, bySequence =>
    if ∃ r ∈ bySequence record.sequence, r.infoHash ≠ record.infoHash then
      .error (.conflict "Sources disagree about a publication with the same sequence")
    else agreement rest (Function.update bySequence record.sequence (some record))

/-- `max(records, key=lambda r: r.sequence)`: the first of the highest. -/
def highestOf (records : List Record) : Option Record :=
  records.foldl (fun best r => Store.later best (some r)) none

/-- `current`: `gather` is the DHT lookup together with the seedboxes' answers. -/
def current : Act (Option Record) := do
  let found ← raising (perform .gather)
  let previous ← perform .highest
  let records := found ++ previous.toList
  match highestOf records with
  | none => return none
  | some highest =>
    Fiber.ofExcept (agreement (records.mergeSort fun a b => a.sequence ≤ b.sequence) fun _ => none)
    let _ ← raising (perform (.observe highest))
    return some highest

def prepareLocations (config : Config) : Act Locations := do
  let current ← raising (perform .resolveLocations)
  let previous ← perform .knownLocations
  let maximum := max ((current.map (·.sequence)).getD 0) ((previous.map (·.sequence)).getD 0)
  let now ← perform .now
  let seq ← Fiber.ofExcept (nextSequence maximum now)
  Fiber.ofExcept (Locations.sign config.wire config.signer seq (config.nodes.map (·.api)))

def commitLocations (locations : Locations) : Act Unit := do
  raising (perform (.putLocations locations))
  let actual ← raising (perform .resolveLocations)
  Fiber.ofExcept (raiseIf (actual ≠ some locations)
    (.conflict "DHT locations readback does not match the candidate"))
  raising (perform (.setLocations locations))

def publishLocations (config : Config) : Act Unit := do
  let locations ← prepareLocations config
  commitLocations locations

/-- The descriptor of the publication to update. -/
def existingValue : Option Record → Act Descriptor
  | none => throw (.publication "No existing publication to update")
  | some base => raising (perform (.existing base))

/-- The descriptor that `prepare` starts from: a new disk, or the existing publication. -/
def startingValue (args : Preparation) (base : Option Record) : Act Descriptor :=
  match args.operation with
  | .publish =>
    match args.disk with
    | none => throw (.publication "A new publication requires a disk")
    | some disk => do
      let infoHash ← raising (perform (.importFile disk))
      return { disk := infoHash, state := none, profile := none }
  | _ => existingValue base

/-- The state of the new descriptor: cleared, imported, or the one before. -/
def withState (args : Preparation) (value : Descriptor) : Act Descriptor := do
  let value := if args.operation = .clearState then { value with state := none } else value
  match args.state with
  | none => return value
  | some path => do
    let infoHash ← raising (perform (.importFile path))
    return { value with state := some infoHash }

def withProfile (args : Preparation) (value : Descriptor) : Act Descriptor := do
  let value := if args.operation = .clearProfile ∨ args.clearProfile = true then
    { value with profile := none } else value
  match args.profile with
  | none => return value
  | some path => do
    match value.state with
    | some state => let _ ← raising (perform (.fileHash state))
    | none => pure ()
    let infoHash ← raising (perform (.importFile path))
    return { value with profile := some infoHash }

/-- Sign a candidate above everything the store knows, and admit it locally. -/
def signCandidate (config : Config) (value : Descriptor) : Act Record := do
  let descriptorHash ← raising (perform (.importDescriptor value))
  let maximum ← perform .maximum
  let now ← perform .now
  let seq ← Fiber.ofExcept (nextSequence maximum now)
  let candidate ← Fiber.ofExcept (Record.sign config.wire config.signer seq descriptorHash)
  raising (perform (.validatePublication candidate))
  let metadata ← raising (perform (.metadata descriptorHash))
  let _ ← raising (perform (.acceptCandidate candidate metadata))
  return candidate

/-- `prepare`: refuses while an interrupted candidate exists. -/
def prepare (config : Config) (args : Preparation) : Act Unit := do
  raising (perform .follow)
  let old ← perform .journal
  Fiber.ofExcept (raiseIf (∃ j ∈ old, j.phase ≠ .complete ∧ j.phase ≠ .conflict)
    (.publication "An interrupted candidate exists; use resume to reuse its torrents and sequence"))
  let base ← current
  let value ← startingValue args base
  raising (perform (.validateDisk value.disk))
  let value ← withState args value
  let value ← withProfile args value
  let candidate ← signCandidate config value
  let locations ← prepareLocations config
  perform (.save ⟨candidate, locations, base, .prepared, []⟩)

/-- Offer the candidate to one seedbox. -/
def offer (journal : Journal) (node : Seedbox) : Act Journal := do
  match ← perform (.candidates node journal.record) with
  | .unreachable => return journal
  | .interrupted => do
    let journal := { journal with phase := .conflict }
    perform (.save journal)
    return journal
  | .conflicting body => do
    perform (.save { journal with phase := .conflict })
    match body with
    | .ok text => throw (.conflict text)
    | .error e => throw e
  | .status code =>
    if code ≥ 400 then return journal
    else if code ≠ 202 then throw (.publication "Seedbox did not admit the candidate")
    else if node.name ∈ journal.notified then return journal
    else do
      let journal := { journal with notified := journal.notified ++ [node.name] }
      perform (.save journal)
      return journal

/-- Wait until one seedbox has every piece. -/
def awaitCopy (journal : Journal) : Nat → Act Unit
  | 0 => throw (.publication
      "No single seedbox announced every piece; public name unchanged. Use resume")
  | polls + 1 => do
    match ← perform .completeNode with
    | some _ => perform (.save { journal with phase := .copied })
    | none => awaitCopy journal polls

/-- `transfer` of the journal the process holds, which is the one in the file: every change to
    it is saved at once. -/
def transfer (config : Config) : Act Unit := do
  match ← perform .journal with
  | none => throw (.publication "No candidate to resume for this identity")
  | some journal => do
    let value ← raising (perform (.descriptor journal.record.infoHash))
    raising (perform (.seed journal.record value))
    let journal := { journal with phase := .transferring }
    perform (.save journal)
    let journal ← config.nodes.foldlM offer journal
    Fiber.ofExcept (raiseIf (journal.notified = [])
      (.publication "No configured seedbox admitted this candidate; public name unchanged"))
    awaitCopy journal config.polls

/-- The two puts of `commit`, with its handler: a `Conflict` of EITHER is written down. -/
def putBoth (journal : Journal) : Act Unit :=
  tryCatch
    (do
      commitLocations journal.locations
      raising (perform (.put journal.record)))
    (fun e =>
      if e.isConflict then do
        perform (.save { journal with phase := .conflict })
        throw e
      else throw e)

/-- Read the candidate back and adopt it. -/
def confirm (journal : Journal) : Act Unit := do
  match ← raising (perform .resolve) with
  | none => throw (.publication
      "DHT readback is unavailable; publication is not confirmed. Use resume")
  | some readback =>
    if readback ≠ journal.record then do
      perform (.save { journal with phase := .conflict })
      throw (.conflict "DHT readback does not match the candidate; publication is not confirmed")
    else do
      raising (perform (.setPublic journal.record))
      let value ← raising (perform (.descriptor journal.record.infoHash))
      raising (perform (.adopt journal.record value))
      perform (.save { journal with phase := .complete })

/-- `commit` of the journal the process holds. -/
def commit : Act Unit := do
  match ← perform .journal with
  | none => throw (.publication "No candidate to resume for this identity")
  | some journal => do
    let node ← perform .completeNode
    Fiber.ofExcept (raiseIf (node = none)
      (.publication "A complete copy must be observed on one seedbox before committing"))
    let now ← current
    if now ≠ journal.base ∧ now ≠ some journal.record then do
      perform (.save { journal with phase := .conflict })
      throw (.conflict
        "A different publication appeared after this candidate was prepared; prepare a new publication")
    else do
      perform (.save { journal with phase := .committing })
      putBoth journal
      confirm journal

/-- The calls a process makes on a root.  `publish` is `transfer` and then `commit`; `resume`
    is the same on the journal of an earlier process. -/
inductive Call where
  | status
  | prepare (args : Preparation)
  | transfer
  | commit
  | locations
  deriving DecidableEq, Repr

def Call.program (config : Config) : Call → Act Unit
  | .status => do
    let _ ← current
  | .prepare args => Torrent.prepare config args
  | .transfer => Torrent.transfer config
  | .commit => Torrent.commit
  | .locations => publishLocations config

/-! ## §3. A root. -/

/-- What one put of the native callback leaves: the newer or conflicting value it found, or
    the new value. -/
inductive PutAnswer (α : Type) where
  | stored
  | superseded (found : α)
  | failed (e : Failure)

/-- The environment's part of an operation. -/
inductive Answer where
  /-- The operation is on the root's own files: nothing to choose. -/
  | done
  | nothing (r : Except Failure Unit)
  | bytes (r : Except Failure Bytes)
  | value (r : Except Failure Descriptor)
  | admission (r : Admission)
  | node (name : Option String)
  | clock (now : Nat)
  | records (r : Except Failure (List Record))
  | record (r : Except Failure (Option Record))
  | locations (r : Except Failure (Option Locations))
  | put (r : PutAnswer Record)
  | putLocations (r : PutAnswer Locations)

/-- The durable files of one identity, and the publication records the running call was
    shown. -/
structure Root where
  store : Store
  journal : Option Journal
  observed : List Record

/-- An authentic publication record of this identity: what lookups return. -/
def authentic (config : Config) (r : Record) : Bool :=
  r.publicKey = config.signer.publicKey ∧ (r.verify config.wire).isOk

/-- What `Engine.put` raises or returns.  A superseding value is one that the native callback
    keeps; every other failure is not a conflict. -/
def PutAnswer.result {α : Type} [Signed α] (record : α) : PutAnswer α → Option (Except Failure Unit)
  | .stored => some (.ok ())
  | .superseded found =>
    if Supersedes found record then
      some (.error (.conflict "A newer or conflicting publication was found during DHT put"))
    else none
  | .failed e => if e.isConflict then none else some (.error e)

/-- A record found by a put was seen. -/
def PutAnswer.found {α : Type} : PutAnswer α → List α
  | .superseded found => [found]
  | _ => []

/-- A transaction of the root's store. -/
def Root.transact {α : Type} (root : Root) (t : Transaction α) : Root × Except Failure α :=
  ({ root with store := (t.run root.store).1 }, (t.run root.store).2)

/-- Remember what the call was shown. -/
def Root.shown (root : Root) (records : List Record) : Root :=
  { root with observed := root.observed ++ records }

/-- What one operation does to a root, given the environment's answer; `none` when the answer
    is not one that the operation can have. -/
def Root.handle (config : Config) : (op : Op) → Answer → Root → Option (Root × op.Ret)
  | .journal, .done, root => some (root, root.journal)
  | .save journal, .done, root => some ({ root with journal := some journal }, ())
  | .follow, .done, root => some (root.transact (Store.follow config.signer.publicKey))
  | .highest, .done, root =>
    let r := root.store.observed config.signer.publicKey
    some (root.shown r.toList, r)
  | .observe record, .done, root => some (root.transact (Store.observe config.wire record))
  | .maximum, .done, root => some (root, root.store.maximum config.signer.publicKey)
  | .acceptCandidate record metadata, .done, root =>
    some (root.transact (Store.acceptCandidate config.wire record (some metadata)))
  | .setPublic record, .done, root => some (root.transact (Store.setPublic config.wire record))
  | .adopt record value, .done, root =>
    some (root.transact (Store.adopt config.wire record value))
  | .knownLocations, .done, root => some (root, root.store.locations config.signer.publicKey)
  | .setLocations l, .done, root => some (root.transact (Store.setLocations config.wire l))
  | .importFile _, .bytes r, root => some (root, r)
  | .importDescriptor _, .bytes r, root => some (root, r)
  | .existing _, .value r, root => some (root, r)
  | .validateDisk _, .nothing r, root => some (root, r)
  | .fileHash _, .bytes r, root => some (root, r)
  | .validatePublication _, .nothing r, root => some (root, r)
  | .metadata _, .bytes r, root => some (root, r)
  | .descriptor _, .value r, root => some (root, r)
  | .seed _ _, .nothing r, root => some (root, r)
  | .candidates _ _, .admission r, root => some (root, r)
  | .completeNode, .node name, root => some (root, name)
  | .now, .clock now, root => some (root, now)
  | .gather, .records (.ok found), root =>
    if found.all (authentic config) then some (root.shown found, .ok found) else none
  | .gather, .records (.error e), root => some (root, .error e)
  | .resolve, .record (.ok found), root =>
    if found.all (authentic config) then some (root.shown found.toList, .ok found) else none
  | .resolve, .record (.error e), root => some (root, .error e)
  | .resolveLocations, .locations r, root => some (root, r)
  | .put record, .put r, root => (r.result record).map fun out => (root.shown r.found, out)
  | .putLocations l, .putLocations r, root => (r.result l).map fun out => (root, out)
  | _, _, _ => none

end My98.Torrent
