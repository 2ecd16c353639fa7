/-
  My98.Web.Worker — the disk Worker (`src/disk/web/worker.js`).

  The Worker owns one vault, the map of the sources its image may read from, and what the page
  asked it to keep: the file prepared for download, the candidate of a restored state.  `execute`
  is an `Async` over that state, so that a request ends with a reply or with an error, and in
  both cases with WHATEVER IT HAD ALREADY DONE.

  One `Env` is everything a request awaits: the polls of `cancelled()`, the reads of the sources,
  and the answers of the calls to the torrent port.  The `WorkerProtocol` runs one request after
  the other, so that a run of the Worker is a list of requests, each with its `Env`.
-/
import Mathlib.Algebra.Order.Ring.Nat
import Mathlib.Tactic.Common
import My98.Disk.Overlay
import My98.Lib.Machine

namespace My98.Web.Worker

open My98.Lib My98.Disk My98.Crypto

variable {P : Primitives} {α : Type}

/-! ## §1. State. -/

/-- What `execute` uses of a `RemotePublication`. -/
structure Remote where
  /-- `remote.infoHash`. -/
  infoHash : String
  startupJobs : List Nat
  startupSerial : Nat
  deriving DecidableEq

/-- A `Blob`, the zeros of `createEmpty`, or a publication. -/
inductive Kind where
  | blob
  | zeros
  | remote (r : Remote)
  deriving DecidableEq

structure Source where
  bytes : Bytes
  kind : Kind
  deriving DecidableEq

abbrev Sources := List (String × Source)

namespace Sources

/-- `sources.get(id)`. -/
def get (s : Sources) (id : String) : Option Source := (s.find? fun e => e.1 = id).map (·.2)

/-- `sources.delete(id)`. -/
def delete (s : Sources) (id : String) : Sources := s.filter fun e => e.1 ≠ id

/-- A method of the publication under `id` changes it. -/
def update (s : Sources) (id : String) (f : Remote → Remote) : Sources :=
  s.map fun e =>
    if e.1 = id then
      match e.2.kind with
      | .remote r => (e.1, { e.2 with kind := .remote (f r) })
      | _ => e
    else e

end Sources

structure Prepared where
  id : Nat
  blob : Bytes
  deriving DecidableEq

/-- `stateCandidate`. -/
structure Candidate (P : Primitives) where
  vault : Engine P
  token : Nat
  revision : Nat
  source : Option String
  /-- `origin.sha256`. -/
  origin : String
  prefetchId : Option Nat

structure State (P : Primitives) where
  vault : Option (Engine P)
  /-- `identity.publicKey`. -/
  identity : Option Bytes
  sources : Sources
  sourceId : Nat
  current : Option String
  prepared : Option Prepared
  nextDownload : Nat
  stateCandidate : Option (Candidate P)
  stateSerial : Nat
  /-- Whether a `BootAnalysis` is recording. -/
  bootAnalysis : Bool
  restoredOrigin : Option String
  freshRestore : Bool
  torrentIO : Bool

def State.init : State P where
  vault := none
  identity := none
  sources := []
  sourceId := 0
  current := none
  prepared := none
  nextDownload := 0
  stateCandidate := none
  stateSerial := 0
  bootAnalysis := false
  restoredOrigin := none
  freshRestore := false
  torrentIO := false

/-- The open image. -/
def State.image (w : State P) : Option Image := w.vault.bind (·.image)

/-- The vault, once a call of it is over. -/
def State.put (w : State P) (e : Engine P) : State P := { w with vault := some e }

/-- `sources.get(current)`. -/
def State.input (w : State P) : Option Source := w.current.bind w.sources.get

/-- `sources.get(current)`, when it is a publication. -/
def State.remote (w : State P) : Option Remote :=
  w.input.bind fun s =>
    match s.kind with
    | .remote r => some r
    | _ => none

/-! ## §2. What a request awaits. -/

/-- What `decodeState` returns. -/
structure Decoded where
  baseInfoHash : Option String
  stateSha256 : String
  overlay : Bytes

/-- The answers to one request. -/
structure Env where
  /-- The polls of `cancelled()`, by the clock. -/
  cancelled : Nat → Bool
  /-- The reads of a source that fail. -/
  readFails : Nat → Option Error
  random : Nat → (n : Nat) → Option (Fin n → UInt8)
  /-- The polls of the protocol, before `execute` and in its `catch`. -/
  before : Bool
  after : Bool
  /-- The poll of `openRemote` right after `vault.open`. -/
  opened : Bool
  /-- `RemotePublication.open`. -/
  publication : Except Error (Remote × Bytes)
  setLoadPrefetch : Except Error Unit
  startPrefetch : Except Error Unit
  /-- `startupPrefetchOptions`. -/
  startupOptions : Except Error Unit
  stateInput : Except Error Unit
  decoded : Except Error Decoded
  encoded : Except Error Bytes
  /-- `clearCache` of a publication, or `clearStorage`. -/
  cleared : Except Error Unit
  /-- `bootAnalysis.finish()`. -/
  analysed : Except Error Unit
  /-- The calls that only ask the vault or a publication. -/
  asked : Except Error Unit
  /-- How many rounds of a loop over the vault there are. -/
  rounds : Nat

/-- `slopDiskRead`; a poll of it that finds the request cancelled is one more failure. -/
def slopDiskRead (env : Env) (sources : Sources) (t : Nat) (id : String) (offset length : Nat) :
    Disk.Answer :=
  match sources.get id with
  | none => .failed ⟨"IO_ERROR", "Source range unavailable"⟩
  | some input =>
    if input.bytes.length < offset + length then .failed ⟨"IO_ERROR", "Source range unavailable"⟩
    else
      match env.readFails t with
      | some e => .failed e
      | none => .bytes (slice input.bytes offset length)

/-- What the vault sees of the Worker. -/
def Env.io (env : Env) (sources : Sources) : Io where
  cancelled := env.cancelled
  read := slopDiskRead env sources
  random := env.random

/-! ## §3. The small parts. -/

def self : Async (State P) (State P) := do
  let (w, _) ← get
  pure w

def update (f : State P → State P) : Async (State P) Unit :=
  modify fun (w, t) => (f w, t)

def check (env : Env) : Async (State P) Unit := do
  let t ← tick
  require (env.cancelled t = false) ⟨"CANCELLED", "Operation cancelled"⟩

/-- A method of the vault. -/
def onVault (env : Env) (c : Io → Async (Engine P) α) : Async (State P) α := do
  let w ← self
  match w.vault with
  | none => throw .panic
  | some e =>
    zoom (fun s => (e, s.2)) (fun s' s => (s.1.put s'.1, s'.2)) (c (env.io w.sources))

/-- A `catch`; a loop that does not end is not caught. -/
def catching (c : Async (State P) α) (h : Stop → Async (State P) α) : Async (State P) α :=
  tryCatch c fun st => if st = .diverged then throw st else h st

/-- `try {c} finally {f}`. -/
def finally' (c : Async (State P) α) (f : Async (State P) Unit) : Async (State P) α := do
  let a ← catching c fun st => do
    f
    throw st
  f
  pure a

/-- `source:${++sourceId}`. -/
def sourceName (n : Nat) : String := "source:" ++ Nat.repr n

/-- `sources.set(id, value)` under a new id. -/
def register (value : Source) : Async (State P) String := do
  let w ← self
  let id := sourceName (w.sourceId + 1)
  update fun w => { w with sourceId := w.sourceId + 1, sources := w.sources ++ [(id, value)] }
  pure id

/-- `source(value)`. -/
def source (value : Bytes) : Async (State P) String := register ⟨value, .blob⟩

/-- `remove(id)`.  `close` of a publication catches what its calls throw. -/
def remove (id : String) : Async (State P) Unit :=
  update fun w => { w with sources := w.sources.delete id }

/-- `if(previous) await remove(previous)`. -/
def removePrevious (previous : Option String) : Async (State P) Unit :=
  match previous with
  | some id => remove id
  | none => pure ()

/-- `if(id !== current) await remove(id)`. -/
def removeOther (id : String) : Async (State P) Unit := do
  let w ← self
  if w.current ≠ some id then remove id else pure ()

/-- `dropState()`. -/
def dropState : Async (State P) Unit := update fun w => { w with stateCandidate := none }

/-- What a reply carries. -/
inductive Reply where
  | null
  | identity (publicKey : Bytes)
  | bytes (b : Bytes)
  | description (d : Description) (remote : Option String)
  | saved (d : Description) (remote : Option String) (outcome : String) (download : Option Prepared)
  | download (p : Prepared)
  | state (token size : Nat) (prefetchId : Option Nat)

/-- `describe()`. -/
def describe (env : Env) : Async (State P) (Description × Option String) := do
  let d ← onVault env fun _ => Engine.describe
  let w ← self
  pure (d, w.remote.map (·.infoHash))

def described (env : Env) : Async (State P) Reply := do
  let (d, remote) ← describe env
  pure (.description d remote)

/-! ## §4. Opening and creating. -/

/-- The rounds of `build`: `vault.next()` until there is nothing left. -/
def nextLoop (env : Env) : Nat → Bytes → Async (State P) Bytes
  | 0, _ => throw .diverged
  | n + 1, parts => do
    check env
    match ← onVault env Engine.next with
    | none => pure parts
    | some bytes => nextLoop env n (parts ++ bytes)

/-- The part of `build` from `source(blob)` on; its `catch` removes the source again unless it
    has become the current one. -/
def acceptBlob (env : Env) (blob : Bytes) : Async (State P) Reply := do
  let id ← source blob
  catching (do
      onVault env fun io => Engine.accept io id blob.length
      let w ← self
      let prepared : Prepared := ⟨w.nextDownload + 1, blob⟩
      update fun w =>
        { w with
          current := some id, restoredOrigin := none, freshRestore := false
          nextDownload := w.nextDownload + 1, prepared := some prepared }
      removePrevious w.current
      let (d, remote) ← describe env
      pure (.saved d remote "created" (some prepared)))
    fun st => do
      removeOther id
      throw st

def build (env : Env) : Async (State P) Reply := do
  let header ← onVault env fun _ => Engine.header
  catching (do
      let body ← nextLoop env env.rounds []
      check env
      -- accept only after assembly succeeds and queued cancellation has been observed
      check env
      acceptBlob env (header ++ body))
    fun st => do
      onVault env fun _ => Engine.cancel
      throw st

/-- `Vault.open_read_only(id, size, readKey)`, which has no vault to act on. -/
def openCandidate (env : Env) (id : String) (total : Nat) (readKey : Bytes) :
    Async (State P) (Engine P) := do
  let w ← self
  zoom (fun s => ((), s.2)) (fun s' s => (s.1, s'.2))
    (Engine.openReadOnly P (env.io w.sources) id total readKey)

def openReadOnly (env : Env) (file readKey : Bytes) : Async (State P) Reply := do
  let w ← self
  require (w.vault.isNone = true) (operation "Close the current disk or identity first")
  require (readKey.length = 64) ⟨"INVALID_READ_KEY", "Invalid read key"⟩
  let id ← source file
  catching (do
      let candidate ← openCandidate env id file.length readKey
      check env
      update fun w => { w with vault := some candidate, current := some id, prepared := none }
      described env)
    fun st => do
      remove id
      throw st

/-- The arguments of a publication. -/
structure RemoteArguments where
  unknownKey : Bool
  prefetchScope : Option String

/-- `remoteArguments(args, owner)`. -/
def remoteArguments (a : RemoteArguments) : Async (State P) Unit := do
  require (a.unknownKey = false) ⟨"INVALID_PUBLICATION", "Unknown publication argument"⟩
  require (∀ s ∈ a.prefetchScope, s = "none" ∨ s = "disk")
    ⟨"INVALID_PROFILE", "Initial prefetch scope must be none or disk"⟩
  let w ← self
  require (w.torrentIO = true) ⟨"IO_ERROR", "Ciphertext bridge is unavailable"⟩

/-- `vault=undefined; current=undefined; await remove(id)`. -/
def resetVault (id : String) : Async (State P) Unit := do
  update fun w => { w with vault := none, current := none }
  remove id

def openRemoteReadOnly (env : Env) (a : RemoteArguments) (readKey : Bytes) :
    Async (State P) Reply := do
  let w ← self
  require (w.vault.isNone = true) (operation "Close the current disk or identity first")
  require (readKey.length = 64) ⟨"INVALID_READ_KEY", "Invalid read key"⟩
  remoteArguments a
  let (remote, bytes) ← ofResult env.publication
  let id ← register ⟨bytes, .remote remote⟩
  catching (do
      let candidate ← openCandidate env id bytes.length readKey
      check env
      update fun w => { w with vault := some candidate, current := some id, prepared := none }
      ofResult env.startPrefetch
      described env)
    fun st => do
      resetVault id
      throw st

def unlock (username : String) (password : Bytes) (machine : String) : Async (State P) Reply := do
  let w ← self
  require (w.vault.isNone = true) (operation "Close the previous identity first")
  let e ← ofResult (Engine.new P username password machine)
  update fun w => { w with vault := some e }
  match e.identity with
  | none => throw .panic
  | some id => do
    let publicKey ← ofCrypto id.publicKeyBytes
    update fun w => { w with identity := some publicKey }
    pure (.identity publicKey)

/-- `create` and `createEmpty` once the raw source is known. -/
def createFrom (env : Env) (raw : Source) : Async (State P) Reply := do
  let id ← register raw
  finally' (do
      onVault env fun io => Engine.beginCreate io id raw.bytes.length
      build env)
    (remove id)

/-- `a.sizeBytes` is `none` when it is no safe integer. -/
def createEmpty (env : Env) (sizeBytes : Option Nat) : Async (State P) Reply := do
  match sizeBytes with
  | none => fail ⟨"INVALID_SIZE",
      "Size must be a positive whole number of 512-byte sectors, up to 1 TiB."⟩
  | some size => do
    require (0 < size ∧ size ≤ 2 ^ 40 ∧ size % 512 = 0) ⟨"INVALID_SIZE",
      "Size must be a positive whole number of 512-byte sectors, up to 1 TiB."⟩
    createFrom env ⟨List.replicate size 0, .zeros⟩

def create (env : Env) (file : Bytes) : Async (State P) Reply := createFrom env ⟨file, .blob⟩

/-- What `open` and `openRemote` do once the vault has the image. -/
def makeCurrent (id : String) : Async (State P) Unit := do
  let w ← self
  update fun w =>
    { w with current := some id, prepared := none, restoredOrigin := none, freshRestore := false }
  removePrevious w.current

/-- `open`. -/
def openFile (env : Env) (file : Bytes) : Async (State P) Reply := do
  let id ← source file
  catching (do
      onVault env fun io => Engine.openDisk io id file.length
      makeCurrent id
      described env)
    fun st => do
      remove id
      throw st

/-- The poll after `vault.open`. -/
def checkOpened (env : Env) : Async (State P) Unit :=
  require (env.opened = false) ⟨"CANCELLED", "Operation cancelled"⟩

def openRemote (env : Env) (a : RemoteArguments) (hasReadKey : Bool) : Async (State P) Reply := do
  require (hasReadKey = false) ⟨"INVALID_READ_KEY", "Use the read-only publication operation"⟩
  remoteArguments a
  let (remote, bytes) ← ofResult env.publication
  let id ← register ⟨bytes, .remote remote⟩
  catching (do
      onVault env fun io => Engine.openDisk io id bytes.length
      checkOpened env
      makeCurrent id
      ofResult env.startPrefetch
      described env)
    fun st => do
      -- the vault keeps the image it has just opened
      remove id
      throw st

/-! ## §5. States. -/

/-- `remote.startStartupPrefetch(prefetch)`: the only job is the new one. -/
def startStartupPrefetch (env : Env) (id : String) (remote : Remote) : Async (State P) Nat := do
  ofResult env.startupOptions
  update fun w =>
    { w with
      sources := w.sources.update id fun r =>
        { r with startupJobs := [r.startupSerial + 1], startupSerial := r.startupSerial + 1 } }
  pure (remote.startupSerial + 1)

/-- The startup job, when one is asked for. -/
def startupJob (env : Env) (prefetch : Bool) (id : String) (remote : Remote) :
    Async (State P) (Option Nat) :=
  if prefetch then do
    let _ ← describe env
    some <$> startStartupPrefetch env id remote
  else pure none

/-- The input of `prepareState`, and its startup job. -/
def stateSource (env : Env) (published prefetch : Bool) : Async (State P) (Option Nat) := do
  let w ← self
  if published then
    match w.current, w.remote with
    | some id, some remote => do
      let prefetchId ← startupJob env prefetch id remote
      ofResult env.stateInput
      pure prefetchId
    | _, _ => fail ⟨"NO_PUBLISHED_STATE", "Open a publication with a state first"⟩
  else if prefetch then
    fail ⟨"INVALID_PROFILE", "Startup prefetch requires a published state"⟩
  else pure none

/-- `reference !== null && … && reference !== remote.remote.infoHash`. -/
def otherDisk (reference : Option String) (remote : Option Remote) : Bool :=
  match reference, remote with
  | some hash, some r => hash != r.infoHash
  | _, _ => false

/-- `validateStartupPrefetch` and `commitStartupPrefetch` look the job up. -/
def hasJob (remote : Option Remote) (id : Nat) : Bool := remote.any fun r => r.startupJobs.contains id

def prepareState (env : Env) (published prefetch : Bool) : Async (State P) Reply := do
  dropState
  let prefetchId ← stateSource env published prefetch
  let decoded ← ofResult env.decoded
  let w ← self
  require (otherDisk decoded.baseInfoHash w.remote = false)
    ⟨"INVALID_STATE", "State belongs to a different published disk"⟩
  require (∀ id ∈ prefetchId, hasJob w.remote id = true)
    ⟨"INVALID_STATE", "Expired startup prefetch"⟩
  check env
  let candidate ← onVault env fun _ => Engine.forkState decoded.overlay
  let (d, _) ← describe env
  update fun w =>
    { w with
      stateSerial := w.stateSerial + 1
      stateCandidate := some ⟨candidate, w.stateSerial + 1, d.revision, w.current,
        decoded.stateSha256, prefetchId⟩ }
  pure (.state (w.stateSerial + 1) d.size prefetchId)

def candidateRead (env : Env) (token offset length : Nat) : Async (State P) Reply := do
  let w ← self
  match w.stateCandidate with
  | none => fail ⟨"INVALID_STATE", "Expired state candidate"⟩
  | some c => do
    require (token = c.token) ⟨"INVALID_STATE", "Expired state candidate"⟩
    let b ← zoom (fun s => (c.vault, s.2))
      (fun s' s => ({ s.1 with stateCandidate := some { c with vault := s'.1 } }, s'.2))
      (Engine.read (env.io w.sources) offset length)
    pure (.bytes b)

def discardState (token : Nat) : Async (State P) Reply := do
  let w ← self
  if w.stateCandidate.any fun c => c.token = token then dropState
  pure .null

/-- The candidate becomes the vault. -/
def installed (w : State P) (c : Candidate P) : State P :=
  { w with
    vault := some c.vault, restoredOrigin := some c.origin, freshRestore := true
    stateCandidate := none, prepared := none }

/-- `sources.get(current)?.setLoadPrefetch?.(…)`. -/
def setLoadPrefetch (env : Env) : Async (State P) Unit := do
  let w ← self
  match w.remote with
  | none => pure ()
  | some _ => do
    let _ ← describe env
    ofResult env.setLoadPrefetch

def commitState (env : Env) (token : Nat) : Async (State P) Reply := do
  let w ← self
  match w.stateCandidate with
  | none => fail ⟨"INVALID_STATE", "Disk changed during restoration"⟩
  | some c => do
    require (token = c.token) ⟨"INVALID_STATE", "Disk changed during restoration"⟩
    let (d, _) ← describe env
    require (c.revision = d.revision ∧ c.source = w.current)
      ⟨"INVALID_STATE", "Disk changed during restoration"⟩
    check env
    update fun w => installed w c
    match c.prefetchId with
    | some id => require (hasJob w.remote id = true) ⟨"INVALID_STATE", "Expired startup prefetch"⟩
    | none => setLoadPrefetch env
    described env

/-! ## §6. The open disk. -/

def read (env : Env) (offset length : Nat) : Async (State P) Reply := do
  update fun w => { w with freshRestore := false }
  require (length ≤ 0xffffffff) ⟨"IO_ERROR", "Invalid read length"⟩
  let b ← onVault env fun io => Engine.read io offset length
  pure (.bytes b)

def write (env : Env) (offset : Nat) (bytes : Bytes) : Async (State P) Reply := do
  update fun w => { w with freshRestore := false }
  onVault env fun io => Engine.write io offset bytes
  described env

def save (env : Env) : Async (State P) Reply := do
  if ← onVault env Engine.beginSave then build env
  else do
    check env
    onVault env Engine.acceptUnchanged
    let (d, remote) ← describe env
    pure (.saved d remote "unchanged" none)

/-- One block of a publication that is downloaded. -/
def downloadBlock (env : Env) (input parts : Bytes) (block : Nat) : Async (State P) Bytes := do
  check env
  let t ← tick
  match env.readFails t with
  | some e => fail e
  | none => do
    check env
    pure (parts ++ slice input (block * 1048576) (min 1048576 (input.length - block * 1048576)))

def downloadBlob (env : Env) (input : Source) : Async (State P) Bytes :=
  match input.kind with
  | .blob => pure input.bytes
  | _ => do
    let blob ← (List.range (divCeil input.bytes.length 1048576)).foldlM
      (downloadBlock env input.bytes) []
    check env
    pure blob

def download (env : Env) : Async (State P) Reply := do
  let (d, _) ← describe env
  require (d.dirtyBytes = 0) (operation "Save or discard pending writes before downloading")
  let w ← self
  match w.prepared with
  | some p => pure (.download p)
  | none =>
    match w.input with
    | none => throw .panic
    | some input => do
      let blob ← downloadBlob env input
      let prepared : Prepared := ⟨w.nextDownload + 1, blob⟩
      update fun w => { w with nextDownload := w.nextDownload + 1, prepared := some prepared }
      pure (.download prepared)

def retry : Async (State P) Reply := do
  let w ← self
  match w.prepared with
  | none => fail (operation "No prepared download")
  | some p => pure (.download p)

def discard (env : Env) : Async (State P) Reply := do
  onVault env fun _ => Engine.discard
  update fun w => { w with restoredOrigin := none, freshRestore := false }
  setLoadPrefetch env
  described env

/-- The rounds of `verify`. -/
def verifyLoop (env : Env) : Nat → Async (State P) Bytes
  | 0 => throw .diverged
  | n + 1 => do
    check env
    match ← onVault env Engine.verifyStep with
    | some hash => do
      check env
      let _ ← describe env
      pure hash
    | none => verifyLoop env n

def verify (env : Env) : Async (State P) Reply := do
  onVault env fun _ => Engine.verifyStart
  let hash ← catching (verifyLoop env env.rounds) fun st => do
    onVault env fun _ => Engine.cancel
    throw st
  pure (.bytes hash)

def clearCaches (env : Env) : Async (State P) Reply := do
  onVault env fun _ => Engine.clearCache
  ofResult env.cleared
  pure .null

def State.closed (w : State P) : State P :=
  { w with
    stateCandidate := none, bootAnalysis := false, restoredOrigin := none, freshRestore := false
    vault := none, sources := [], identity := none, current := none, prepared := none }

def close : Async (State P) Reply := do
  update State.closed
  pure .null

/-! ## §7. `execute`. -/

inductive Origin where
  | boot
  | restored
  deriving DecidableEq

/-- `originFor(kind)`. -/
def originFor (kind : Origin) : Async (State P) Unit := do
  let w ← self
  require (kind = .boot ∨ w.restoredOrigin.isSome)
    (operation "Restore a state before selecting its load profile")

def startLoadAnalysis (env : Env) (kind : Origin) : Async (State P) Reply := do
  let (d, remote) ← describe env
  originFor kind
  let w ← self
  require (w.bootAnalysis = false ∧ remote.isSome ∧
      (if kind = .boot then d.dirtyBytes = 0 else w.freshRestore = true))
    (operation "Analysis requires a clean remote boot or a freshly restored remote state")
  update fun w => { w with bootAnalysis := true, freshRestore := false }
  pure .null

def startBootAnalysis (env : Env) : Async (State P) Reply := do
  let (d, remote) ← describe env
  let w ← self
  require (w.bootAnalysis = false ∧ remote.isSome ∧ d.dirtyBytes = 0)
    (operation "Boot analysis requires a clean remote disk and no existing analysis")
  update fun w => { w with bootAnalysis := true }
  pure .null

def finishAnalysis (env : Env) : Async (State P) Reply := do
  let w ← self
  require (w.bootAnalysis = true) (operation "No boot analysis is available")
  ofResult env.analysed
  update fun w => { w with bootAnalysis := false }
  pure .null

/-- The operation `setLoadPrefetch`. -/
def selectPrefetch (env : Env) (kind : Origin) (scope : String) : Async (State P) Reply := do
  originFor kind
  require (scope ∈ ["none", "profile", "disk", "auto"])
    (operation "Invalid load prefetch scope")
  setLoadPrefetch env
  pure .null

def saveState (env : Env) : Async (State P) Reply := do
  let _ ← describe env
  let blob ← ofResult env.encoded
  check env
  pure (.bytes blob)

/-- The operations that only ask. -/
inductive Query where
  | relayPublicKey
  | signRelayChallenge
  | exportReadOnlyKey
  | readStats
  | readTrace
  | resumePrefetch
  | waitLoadPrefetch (id : Nat)
  deriving DecidableEq

def ask (env : Env) (q : Query) : Async (State P) Reply := do
  let w ← self
  match q with
  | .signRelayChallenge =>
    require (w.identity.isSome = true) ⟨"READ_ONLY", "Relay authentication requires an unlocked identity"⟩
  | .waitLoadPrefetch id =>
    require (w.stateCandidate.all (fun c => decide (c.prefetchId ≠ some id)) = true)
      ⟨"INVALID_STATE", "Commit the state before waiting for startup prefetch"⟩
  | _ => pure ()
  ofResult env.asked
  pure .null

inductive Op where
  | close
  | openReadOnly (file readKey : Bytes)
  | openRemoteReadOnly (a : RemoteArguments) (readKey : Bytes)
  | unlock (username : String) (password : Bytes) (machine : String)
  | startLoadAnalysis (kind : Origin)
  | setLoadPrefetch (kind : Origin) (scope : String)
  | startBootAnalysis
  | finishAnalysis
  | cancelAnalysis
  | createEmpty (sizeBytes : Option Nat)
  | create (file : Bytes)
  | openFile (file : Bytes)
  | openRemote (a : RemoteArguments) (hasReadKey : Bool)
  | saveState
  | prepareState (published prefetch : Bool)
  | candidateRead (token offset length : Nat)
  | discardState (token : Nat)
  | commitState (token : Nat)
  | ask (q : Query)
  | describe
  | read (offset length : Nat)
  | write (offset : Nat) (bytes : Bytes)
  | save
  | download
  | retry
  | discard
  | verify
  | clearCaches
  | unknown

/-- Unavailable in read-only mode. -/
def Op.needsOwner : Op → Bool
  | .unlock _ _ _ => true
  | .create _ => true
  | .createEmpty _ => true
  | .openFile _ => true
  | .openRemote _ _ => true
  | .save => true
  | .saveState => true
  | .ask .exportReadOnlyKey => true
  | _ => false

/-- Unavailable while an analysis runs. -/
def Op.stopsAnalysis : Op → Bool
  | .create _ => true
  | .createEmpty _ => true
  | .openFile _ => true
  | .openRemote _ _ => true
  | .save => true
  | .download => true
  | .retry => true
  | .discard => true
  | .verify => true
  | .saveState => true
  | .prepareState _ _ => true
  | _ => false

/-- The `switch`. -/
def dispatch (env : Env) : Op → Async (State P) Reply
  | .startLoadAnalysis kind => startLoadAnalysis env kind
  | .setLoadPrefetch kind scope => selectPrefetch env kind scope
  | .startBootAnalysis => startBootAnalysis env
  | .finishAnalysis => finishAnalysis env
  | .cancelAnalysis => do
    update fun w => { w with bootAnalysis := false }
    pure .null
  | .createEmpty sizeBytes => createEmpty env sizeBytes
  | .create file => create env file
  | .openFile file => openFile env file
  | .openRemote a hasReadKey => openRemote env a hasReadKey
  | .saveState => saveState env
  | .prepareState published prefetch => prepareState env published prefetch
  | .candidateRead token offset length => candidateRead env token offset length
  | .discardState token => discardState token
  | .commitState token => commitState env token
  | .ask q => ask env q
  | .describe => described env
  | .read offset length => read env offset length
  | .write offset bytes => write env offset bytes
  | .save => save env
  | .download => download env
  | .retry => retry
  | .discard => discard env
  | .verify => verify env
  | .clearCaches => clearCaches env
  | .close => close
  | _ => fail (operation "Unknown disk operation")

def execute (env : Env) (op : Op) : Async (State P) Reply := do
  let w ← self
  match op, w.vault with
  | .close, none => pure .null
  | op, vault =>
    if vault.isSome ∧ w.identity.isNone ∧ op.needsOwner then
      fail ⟨"READ_ONLY", "Operation unavailable in read-only mode"⟩
    else
      match op with
      | .openReadOnly file readKey => openReadOnly env file readKey
      | .openRemoteReadOnly a readKey => openRemoteReadOnly env a readKey
      | .unlock username password machine => unlock username password machine
      | op =>
        if vault.isNone then fail (operation "Identity is closed")
        else if w.bootAnalysis ∧ op.stopsAnalysis then
          fail (operation "Finish or cancel the boot analysis first")
        else dispatch env op

/-! ## §8. One request. -/

/-- `onCancelled`. -/
def State.cancelVault (w : State P) : State P := { w with vault := w.vault.map Engine.cancelled }

/-- The answer of the `WorkerProtocol`, `ok` or not; none while a loop goes on. -/
def State.answer (w : State P) (env : Env) (op : Op) : Option (Bool × State P) :=
  match if env.before then .error .dropped (w, 0) else execute env op (w, 0) with
  | .ok _ s => some (true, s.1)
  | .error .diverged _ => none
  | .error _ s => some (false, if env.after then s.1.cancelVault else s.1)

/-- What reaches the Worker: a request, or the port of the page. -/
inductive Event where
  | request (env : Env) (op : Op)
  | torrentPort

def step (w : State P) : Event → Option (State P)
  | .request env op => (w.answer env op).map (·.2)
  | .torrentPort => some { w with torrentIO := true }

end My98.Web.Worker
