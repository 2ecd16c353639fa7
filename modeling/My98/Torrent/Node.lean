/-
  My98.Torrent.Node — a seedbox: following names, replicating and adopting (`service.py`).

  A node learns of records in two ways, a candidate that a publisher submits and the public name
  that a DHT poll returns, and `schedule`s each of them.  A replication JOB downloads the
  descriptor and its components, validates them, and adopts the record if it is the public
  name by then; a record that was already validated is adopted at once, in `schedule` itself.
  Adoption frees what nothing refers to any more (`collect`, `retire`).

  Jobs, the downloads they gather and the garbage collector are asyncio tasks: they interleave
  at their awaits, which are the operations here.  Torrents are content addressed: what the
  completed descriptor torrent of an info hash parses to is a function of that hash (`named`).
-/
import Mathlib.Algebra.Order.Ring.Nat
import Mathlib.Tactic.Common
import My98.Lib.Fiber
import My98.Torrent.Store

namespace My98.Torrent.Seedbox

open My98.Lib

/-! ## §1. The state of a node. -/

/-- The key of the job and verification maps: `(record.public_key, record.sequence)`. -/
abbrev Job := Bytes × Nat

def job (record : Record) : Job := (record.publicKey, record.sequence)

/-- Who runs a task: the job of a key, a download gathered by it, or the retirement of a
    torrent. -/
inductive Owner where
  | replication (job : Job)
  | component (job : Job) (infoHash : Bytes)
  | retirement (infoHash : Bytes)
  deriving DecidableEq, Repr

inductive Call where
  | replicate (record : Record) (metadata : Option Bytes)
  | download (infoHash : Bytes) (job : Job)
  | retire (infoHash : Bytes)
  deriving DecidableEq, Repr

/-- What a node is given: the signature check, the followed keys, and what the descriptor
    torrent of an info hash parses to. -/
structure World where
  wire : Wire
  keys : List Bytes
  named : Bytes → Option Descriptor

structure Node where
  store : Store
  /-- `catalog.metainfo`: torrents whose metadata is known. -/
  metainfo : List Bytes
  /-- Torrents whose file is complete in `catalog.objects`. -/
  objects : List Bytes
  handles : List Bytes
  verified : Job → Option Descriptor
  active : List (Job × Bytes)
  /-- The `download_locks` that are held. -/
  locks : List Bytes
  /-- The jobs, and the retirements, whose task is not done. -/
  running : List Job
  retiring : List Bytes
  /-- Tasks that were created and have not run yet. -/
  spawned : List (Owner × Call)
  /-- How the downloads gathered by a job have ended. -/
  gathered : List (Job × Bytes × Option Failure)
  /-- History: the record whose job filled each entry of `verified`. -/
  filledBy : Job → Option Record
  /-- History: the successful calls of `validate_publication`, with the key and the info hash
      of the record and the value returned. -/
  validated : List (Bytes × Bytes × Descriptor)

/-- A node that was never started. -/
def Node.new : Node where
  store := Store.new
  metainfo := []
  objects := []
  handles := []
  verified := fun _ => none
  active := []
  locks := []
  running := []
  retiring := []
  spawned := []
  gathered := []
  filledBy := fun _ => none
  validated := []

/-! ## §2. References and collection. -/

/-- `catalog.descriptor`: readable when the metadata and the complete file are there. -/
def Node.descriptor (world : World) (node : Node) (infoHash : Bytes) : Option Descriptor :=
  if infoHash ∈ node.metainfo ∧ infoHash ∈ node.objects then world.named infoHash else none

def Node.publicRecords (node : Node) : List Record :=
  node.store.followed.filterMap node.store.publicNames

def Node.adoptedRecords (node : Node) : List (Record × Descriptor) :=
  node.store.followed.filterMap node.store.adopted

def Node.candidateRecords (node : Node) : List Record := node.store.candidates.map (·.1)

/-- The info hash of a record with the components of its descriptor. -/
def rooted (infoHash : Bytes) (value : Descriptor) : List Bytes := infoHash :: value.components

/-- The references of records whose descriptor has to be read; unknown children make the whole
    set unknown. -/
def Node.readReferences (world : World) (node : Node) : List Record → Option (List Bytes)
  | [] => some []
  | record :: rest =>
    match node.descriptor world record.infoHash, node.readReferences world rest with
    | some value, some more => some (rooted record.infoHash value ++ more)
    | _, _ => none

/-- `references`: `none` when something cannot be read, and then everything is retained. -/
def Node.references (world : World) (node : Node) : Option (List Bytes) :=
  (node.readReferences world (node.publicRecords ++ node.candidateRecords)).map fun named =>
    (node.adoptedRecords.map fun row => rooted row.1.infoHash row.2).flatten ++ named ++
      node.active.map (·.2)

/-- The keys that `collect` retains in `verified`. -/
def Node.retains (node : Node) (key : Job) : Bool :=
  key ∈ (node.publicRecords ++ node.candidateRecords ++ node.adoptedRecords.map (·.1)).map job ∨
    key ∈ node.active.map (·.1)

/-- `collect`: forget verifications that nothing retains, and retire unreferenced torrents. -/
def Node.collect (world : World) (node : Node) : Node :=
  match node.references world with
  | none => node
  | some references =>
    let unreferenced := node.metainfo.filter fun ih => ih ∉ references ∧ ih ∉ node.retiring
    { node with
      verified := fun key => if node.retains key then node.verified key else none
      retiring := node.retiring ++ unreferenced
      spawned := node.spawned ++ unreferenced.map fun ih => (.retirement ih, .retire ih) }

/-- `schedule`: adopt a record that is already verified and public, or replicate it.  The
    engine says which torrents are seeding. -/
def Node.schedule (world : World) (seeding : Bytes → Bool) (record : Record)
    (metadata : Option Bytes) (node : Node) : Except Failure Node :=
  let replicating : Node :=
    if job record ∈ node.running then node
    else
      { node with
        running := node.running ++ [job record]
        spawned := node.spawned ++
          [(.replication (job record), .replicate record metadata)] }
  match node.verified (job record) with
  | none => .ok replicating
  | some value =>
    if ∀ ih ∈ rooted record.infoHash value, ih ∈ node.handles ∧ seeding ih = true then
      if node.store.publicNames record.publicKey = some record then
        match Store.adopt world.wire record value node.store with
        | .ok (store, _) => .ok (Node.collect world { node with store := store })
        | .error e => .error e
      else .ok node
    else .ok replicating

/-! ## §3. The tasks. -/

inductive Op where
  | remember (infoHash : Bytes)
  | activate (job : Job) (infoHash : Bytes)
  | lock (infoHash : Bytes)
  | unlock (infoHash : Bytes)
  | held (infoHash : Bytes)
  | complete (infoHash : Bytes)
  | metadata (infoHash : Bytes)
  | add (infoHash : Bytes)
  | fetch (infoHash : Bytes)
  | reserve (infoHash : Bytes)
  | drop (infoHash : Bytes)
  | describe (infoHash : Bytes)
  | gather (job : Job) (infoHashes : List Bytes)
  | join (job : Job) (infoHashes : List Bytes)
  | ended (job : Job) (infoHash : Bytes) (failure : Option Failure)
  | validatePublication (record : Record)
  | finish (record : Record) (value : Descriptor)
  | release (job : Job)
  | spare (infoHash : Bytes)
  | detach (infoHash : Bytes)
  | erase (infoHash : Bytes)
  | retired (infoHash : Bytes)

@[reducible] def Op.Ret : Op → Type
  | .remember _ => Except Failure Unit
  | .activate _ _ => Unit
  | .lock _ => Unit
  | .unlock _ => Unit
  | .held _ => Bool
  | .complete _ => Except Failure Unit
  | .metadata _ => Except Failure Bool
  | .add _ => Except Failure Unit
  | .fetch _ => Except Failure Unit
  | .reserve _ => Except Failure Unit
  | .drop _ => Unit
  | .describe _ => Except Failure Descriptor
  | .gather _ _ => Unit
  | .join _ _ => Except Failure Unit
  | .ended _ _ _ => Unit
  | .validatePublication _ => Except Failure Descriptor
  | .finish _ _ => Except Failure Unit
  | .release _ => Unit
  | .spare _ => Option Bool
  | .detach _ => Except Failure Unit
  | .erase _ => Unit
  | .retired _ => Unit

abbrev Act := Fiber Op Op.Ret Failure

abbrev perform (op : Op) : Act op.Ret := Fiber.perform op

abbrev raising {α : Type} (t : Act (Except Failure α)) : Act α := Fiber.raising t

/-- A new torrent: fetch its metadata if needed, check the space, and wait for every piece.
    Any exception takes the torrent out of the session again. -/
def fill (infoHash : Bytes) : Act Unit := do
  let known ← raising (perform (.metadata infoHash))
  raising (perform (.add infoHash))
  tryCatch
    (do
      if known then pure () else raising (perform (.fetch infoHash))
      raising (perform (.reserve infoHash))
      raising (perform (.complete infoHash)))
    (fun e => do
      perform (.drop infoHash)
      throw e)

/-- `download`: one torrent, under its lock. -/
def download (infoHash : Bytes) (job : Job) : Act Unit := do
  perform (.activate job infoHash)
  perform (.lock infoHash)
  tryCatch
    (do
      if ← perform (.held infoHash) then raising (perform (.complete infoHash))
      else fill infoHash
      perform (.unlock infoHash))
    (fun e => do
      perform (.unlock infoHash)
      throw e)

/-- Metadata that came with the candidate is kept. -/
def remembering (record : Record) : Option Bytes → Act Unit
  | some _ => raising (perform (.remember record.infoHash))
  | none => pure ()

/-- The body of `replicate`, up to its handlers. -/
def replicating (record : Record) (metadata : Option Bytes) : Act Unit := do
  remembering record metadata
  download record.infoHash (job record)
  let value ← raising (perform (.describe record.infoHash))
  perform (.gather (job record) value.components)
  raising (perform (.join (job record) value.components))
  let value ← raising (perform (.validatePublication record))
  raising (perform (.finish record value))

/-- `replicate`: an exception is logged and the candidate retained. -/
def replicate (record : Record) (metadata : Option Bytes) : Act Unit := do
  tryCatch (replicating record metadata) (fun _ => pure ())
  perform (.release (job record))

/-- A download that a job gathers. -/
def component (infoHash : Bytes) (job : Job) : Act Unit :=
  tryCatch
    (do
      download infoHash job
      perform (.ended job infoHash none))
    (fun e => perform (.ended job infoHash (some e)))

/-- `retire`: recheck the references under the lock, detach, recheck, erase. -/
def retire (infoHash : Bytes) : Act Unit := do
  perform (.lock infoHash)
  tryCatch
    (do
      match ← perform (.spare infoHash) with
      | none => pure ()
      | some false => perform (.erase infoHash)
      | some true => do
        raising (perform (.detach infoHash))
        perform (.erase infoHash))
    (fun _ => pure ())
  perform (.retired infoHash)

def Call.program : Call → Act Unit
  | .replicate record metadata => Seedbox.replicate record metadata
  | .download infoHash job => component infoHash job
  | .retire infoHash => Seedbox.retire infoHash

/-! ## §4. What the operations do. -/

/-- The environment's part: an awaited call works, or raises. -/
inductive Answer where
  | done
  | failed (e : Failure)

/-- An awaited call that either works, with the given effect, or raises. -/
def awaited (node after : Node) : Answer → Option (Node × Except Failure Unit)
  | .done => some (after, .ok ())
  | .failed e => some (node, .error e)

/-- Add to a set. -/
def insertNew (x : Bytes) (xs : List Bytes) : List Bytes := if x ∈ xs then xs else xs ++ [x]

/-- Remove from a set. -/
def removeAll (x : Bytes) (xs : List Bytes) : List Bytes := xs.filter fun y => y ≠ x

/-- The last block of `replicate`: remember the verification, expose, and adopt the record if
    it is the public name. -/
def Node.finish (world : World) (record : Record) (value : Descriptor) (node : Node) :
    Answer → Node × Except Failure Unit
  | .failed e =>
    ({ node with
       verified := Function.update node.verified (job record) (some value)
       filledBy := Function.update node.filledBy (job record) (some record) }, .error e)
  | .done =>
    let node : Node :=
      { node with
        verified := Function.update node.verified (job record) (some value)
        filledBy := Function.update node.filledBy (job record) (some record) }
    if node.store.publicNames record.publicKey = some record then
      match Store.adopt world.wire record value node.store with
      | .ok (store, _) =>
        (Node.collect world
          { node with
            store := store
            active := node.active.filter fun entry => entry.1 ≠ job record }, .ok ())
      | .error e => (node, .error e)
    else (node, .ok ())

def Node.handle (world : World) : (op : Op) → Answer → Node → Option (Node × op.Ret)
  | .remember ih, answer, node =>
    awaited node { node with metainfo := insertNew ih node.metainfo } answer
  | .activate j ih, .done, node =>
    some ({ node with active := (j, ih) :: node.active }, ())
  | .lock ih, .done, node =>
    if ih ∈ node.locks then none else some ({ node with locks := ih :: node.locks }, ())
  | .unlock ih, .done, node => some ({ node with locks := removeAll ih node.locks }, ())
  | .held ih, .done, node => some (node, decide (ih ∈ node.handles))
  | .complete ih, answer, node =>
    awaited node { node with objects := insertNew ih node.objects } answer
  | .metadata ih, .done, node => some (node, .ok (decide (ih ∈ node.metainfo)))
  | .metadata _, .failed e, node => some (node, .error e)
  | .add ih, answer, node => awaited node { node with handles := insertNew ih node.handles } answer
  | .fetch ih, answer, node =>
    awaited node { node with metainfo := insertNew ih node.metainfo } answer
  | .reserve _, answer, node => awaited node node answer
  | .drop ih, .done, node => some ({ node with handles := removeAll ih node.handles }, ())
  | .describe ih, .done, node => (node.descriptor world ih).map fun value => (node, .ok value)
  | .describe _, .failed e, node => some (node, .error e)
  | .gather j hashes, .done, node =>
    some ({ node with
      gathered := node.gathered.filter fun entry => entry.1 ≠ j
      spawned := node.spawned ++ hashes.map fun ih => (.component j ih, .download ih j) }, ())
  | .join j hashes, .done, node =>
    if ∀ ih ∈ hashes, (j, ih, none) ∈ node.gathered then some (node, .ok ()) else none
  | .join j hashes, .failed e, node =>
    if ∃ ih ∈ hashes, (j, ih, some e) ∈ node.gathered then some (node, .error e) else none
  | .ended j ih failure, .done, node =>
    some ({ node with gathered := (j, ih, failure) :: node.gathered }, ())
  | .validatePublication record, .done, node =>
    (node.descriptor world record.infoHash).map fun value =>
      ({ node with
         validated := (record.publicKey, record.infoHash, value) :: node.validated }, .ok value)
  | .validatePublication _, .failed e, node => some (node, .error e)
  | .finish record value, answer, node => some (node.finish world record value answer)
  | .release j, .done, node =>
    some ({ node with
      active := node.active.filter fun entry => entry.1 ≠ j
      running := node.running.filter fun other => other ≠ j }, ())
  | .spare ih, .done, node =>
    match node.references world with
    | none => some (node, none)
    | some references =>
      if ih ∈ references then some (node, none)
      else some ({ node with handles := removeAll ih node.handles },
        some (decide (ih ∈ node.handles)))
  | .detach _, answer, node => awaited node node answer
  | .erase ih, .done, node =>
    match node.references world with
    | none => some (node, ())
    | some references =>
      if ih ∈ references then some (node, ())
      else some ({ node with
        metainfo := removeAll ih node.metainfo
        objects := removeAll ih node.objects }, ())
  | .retired ih, .done, node =>
    some ({ node with
      locks := removeAll ih node.locks
      retiring := removeAll ih node.retiring }, ())
  | _, _, _ => none

/-! ## §5. A running node. -/

abbrev NodePool := Pool Owner Call Op Op.Ret Failure Unit Node

/-- What happens to a node. -/
inductive Event where
  /-- `POST /v2/candidates`. -/
  | candidate (record : Record) (seeding : Bytes → Bool)
  /-- A poll of a followed key returned a publication record. -/
  | polled (record : Record) (seeding : Bytes → Bool)
  /-- A poll returned a locations record. -/
  | located (locations : Locations)
  /-- The process ends, wherever its tasks are, and a new one starts on the same data. -/
  | restart
  /-- A task that was created runs for the first time. -/
  | run (owner : Owner) (call : Call)
  /-- A running task gets past its next await. -/
  | advance (owner : Owner) (answer : Answer)

/-- Is the record one that a lookup or a submission can deliver to this node? -/
def World.authentic (world : World) (record : Record) : Bool :=
  record.publicKey ∈ world.keys ∧ (record.verify world.wire).isOk

/-- Schedule a record; an exception is logged or answered, and changes nothing. -/
def Node.scheduled (world : World) (seeding : Bytes → Bool) (record : Record)
    (metadata : Option Bytes) (node : Node) : Node :=
  match node.schedule world seeding record metadata with
  | .ok node' => node'
  | .error _ => node

/-- `POST /v2/candidates`. -/
def Node.submit (world : World) (seeding : Bytes → Bool) (record : Record) (node : Node) : Node :=
  match Store.acceptCandidate world.wire record none node.store with
  | .ok (store, _) => Node.scheduled world seeding record none { node with store := store }
  | .error _ => node

/-- The publication half of a poll. -/
def Node.publish (world : World) (seeding : Bytes → Bool) (record : Record) (node : Node) : Node :=
  match Store.setPublic world.wire record node.store with
  | .ok (store, _) => Node.scheduled world seeding record none { node with store := store }
  | .error _ => node

/-- A new process: the files are kept, everything else is rebuilt by scheduling what the store
    holds for the followed keys. -/
def Node.start (world : World) (node : Node) : Node :=
  let fresh : Node :=
    { Node.new with
      store := world.keys.foldl (fun db key =>
        if key ∈ db.followed then db else { db with followed := db.followed ++ [key] }) node.store
      metainfo := node.metainfo
      objects := node.objects
      validated := node.validated }
  let candidates := fresh.store.candidates.filter fun row => row.1.publicKey ∈ world.keys
  let names := fresh.publicRecords.filter fun record => record.publicKey ∈ world.keys
  let scheduled := candidates.foldl
    (fun node row => Node.scheduled world (fun _ => false) row.1 row.2 node) fresh
  names.foldl (fun node record => Node.scheduled world (fun _ => false) record none node) scheduled

/-- A task that starts leaves the list of created ones. -/
def beginCall (owner : Owner) (call : Call) (node : Node) : Node :=
  { node with spawned := node.spawned.erase (owner, call) }

def NodePool.step (world : World) (p : NodePool) : Event → Option NodePool
  | .candidate record seeding =>
    if world.authentic record then
      some { p with shared := p.shared.submit world seeding record }
    else none
  | .polled record seeding =>
    if world.authentic record then
      some { p with shared := p.shared.publish world seeding record }
    else none
  | .located l =>
    match Store.setLocations world.wire l p.shared.store with
    | .ok (store, _) => some { p with shared := { p.shared with store := store } }
    | .error _ => some p
  | .restart => some { shared := p.shared.start world, tasks := fun _ => none }
  | .run owner call =>
    if (owner, call) ∈ p.shared.spawned then
      Pool.step (fun _ call => Call.program call) beginCall (fun _ _ => Node.handle world) p
        (.start owner call)
    else none
  | .advance owner answer =>
    Pool.step (fun _ call => Call.program call) beginCall (fun _ _ => Node.handle world) p
      (.advance owner answer)

/-- A node that was never started. -/
def NodePool.fresh : NodePool := { shared := Node.new, tasks := fun _ => none }

end My98.Torrent.Seedbox
