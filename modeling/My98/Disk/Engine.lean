/-
  My98.Disk.Engine — the disk engine, call by call
  (`src/disk/src/lib.rs`: `Engine`; `src/disk/src/snapshot.rs`).

  An engine has at most one open image and at most one build (a save or a create being
  written out).  `revision` counts the changes of the logical content; a build, a pending
  verification and an "unchanged" verdict all remember the revision they were started at
  and are refused once it has moved.

  Each public method is one definition below, in the order of the source.  `Call` and
  `Engine.step` put them together: one call, with its own host, from one engine to the next.
-/
import My98.Disk.Image

namespace My98.Disk

open My98.Lib My98.Crypto

/-! ## §1. State. -/

structure Build where
  disk : Crypto.Disk
  size : Nat
  header : Bytes
  /-- The plaintext source of a create; a save reads the open image instead. -/
  raw : Option String
  index : Nat
  revision : Nat

structure Engine (P : Primitives) where
  identity : Option (Identity P)
  image : Option Image
  build : Option Build
  revision : Nat
  /-- A running `Sha256` (the bytes fed so far), the next chunk, and the revision. -/
  hash : Option (Bytes × Nat × Nat)
  unchanged : Option Nat

structure Description where
  readOnly : Bool
  size : Nat
  diskId : Bytes
  dirtyBytes : Nat
  dirtySectors : Nat
  cacheBytes : Nat
  revision : Nat

variable {P : Primitives} {σ τ α : Type}

/-- Run `c` on a local variable that starts as `init`; the variable is dropped on a stop. -/
def runLocal (init : τ) (c : Async τ α) : Async σ (α × τ) := fun (s, t) =>
  match c (init, t) with
  | .ok a (x, t') => .ok (a, x) (s, t')
  | .error e (_, t') => .error e (s, t')

/-- `random::<n>()`. -/
def draw (io : Io) (n : Nat) : Async σ (Option (Block n)) := do
  let t ← tick
  pure ((io.random t n).map fun f => ⟨List.ofFn f, by simp⟩)

namespace Engine

def self : Async (Engine P) (Engine P) := do
  let (e, _) ← get
  pure e

def update (f : Engine P → Engine P) : Async (Engine P) Unit :=
  modify fun (e, t) => (f e, t)

/-- A method call on the open image; `missing` is what a missing image does. -/
def onImage (missing : Stop) (c : Async Image α) : Async (Engine P) α := do
  let e ← self
  match e.image with
  | none => throw missing
  | some img =>
    zoom (fun s => (img, s.2)) (fun s' s => ({ s.1 with image := some s'.1 }, s'.2)) c

/-- `self.image.as_mut().ok_or_else(|| operation("No disk open"))?`. -/
def noDisk : Stop := .error (operation "No disk open")

/-! ## §2. Construction. -/

def «new» (P : Primitives) (username : String) (password : Bytes) (machine : String) :
    Except Error (Engine P) := do
  let identity ← (deriveIdentity P username password machine).mapError operation
  pure { identity := some identity, image := none, build := none, revision := 0, hash := none,
         unchanged := none }

/-- `self.identity()?`. -/
def owner : Async (Engine P) (Identity P) := do
  let e ← self
  match e.identity with
  | none => fail ⟨"READ_ONLY", "Read-only disk has no owner identity"⟩
  | some id => pure id

def exportReadKey : Async (Engine P) Bytes := do
  let id ← owner
  ofCrypto id.exportReadKey

def openReadOnly (P : Primitives) (io : Io) (source : String) (total : Nat) (readKey : Bytes) :
    Async Unit (Engine P) := do
  let capability ← ofResult <| (ReadCapability.fromBytes P readKey).mapError fun _ =>
    ⟨"INVALID_READ_KEY", "Invalid read key"⟩
  let b ← exact io source 0 (min total HEADER)
  let size ← ofResult (headerSize b total)
  ofResult (verifyHeader P capability.publicKey.val b)
  let disk ← ofResult <| (capability.openDisk P (slice b 24 110)).mapError fun _ =>
    ⟨"AUTHENTICATION_FAILED", "Read key cannot authenticate the disk descriptor"⟩
  -- the candidate is committed only after its first data record authenticates
  let (_, image) ← runLocal { source, size, disk, dirty := ∅, cache := Cache.new }
    (Image.original P io 0)
  check io
  pure { identity := none, image := some image, build := none, revision := 1, hash := none,
         unchanged := none }

def describe : Async (Engine P) Description := do
  let e ← self
  match e.image with
  | none => throw noDisk
  | some i => do
    ofCrypto i.disk.check
    pure { readOnly := e.identity.isNone
           size := i.size
           diskId := i.disk.id.val
           dirtyBytes := (i.dirty.toList.map fun entry => entry.2.length).sum
           dirtySectors := i.dirty.size
           cacheBytes := i.cache.bytes
           revision := e.revision }

def openDisk (io : Io) (source : String) (total : Nat) : Async (Engine P) Unit := do
  let _ ← owner
  let e ← self
  require (e.image.isNone ∧ e.build.isNone)
    (operation "Close the current disk before opening another")
  let b ← exact io source 0 (min total HEADER)
  let id ← owner
  let (disk, size) ← ofResult (parseHeader id b total)
  check io
  update fun e =>
    { e with image := some { source, size, disk, dirty := ∅, cache := Cache.new }
             revision := e.revision + 1 }

/-! ## §3. Builds. -/

def begin (io : Io) (raw : Option String) (size : Nat) : Async (Engine P) Unit := do
  let e ← self
  require (e.build.isNone = true) (operation "A save is already being prepared")
  let id ← owner
  let randomId ← draw io 16
  let randomKey ← draw io 32
  let disk ← ofCrypto (id.createDisk randomId randomKey)
  let salt ← draw io 32
  let header ← ofResult (makeHeader id salt disk size)
  update fun e =>
    { e with build := some { disk, size, header, raw, index := 0, revision := e.revision } }

def beginCreate (io : Io) (source : String) (size : Nat) : Async (Engine P) Unit := do
  let _ ← owner
  let e ← self
  require (e.image.isNone ∧ e.build.isNone)
    (operation "Close the current disk before creating another")
  let _ ← ofResult (fileSize size)
  begin io (some source) size

/-- The locals of the comparison loop of `begin_save`. -/
structure Comparison where
  changed : Bool
  group : Option Nat
  original : Bytes

/-- One turn of the comparison loop: the chunk is fetched once per group of 128 sectors. -/
def compareSector (P : Primitives) (io : Io) (acc : Comparison) (sector : Nat) :
    Async Image Comparison := do
  check io
  let acc ← refreshGroup acc (sector / 128)
  let img ← Image.self
  let bytes ← unwrap img.dirty[sector]?
  let inside := sector % 128 * 512
  let old ← index acc.original inside (inside + bytes.length)
  pure { acc with changed := acc.changed || old != bytes }
where
  refreshGroup (acc : Comparison) (group : Nat) : Async Image Comparison :=
    if acc.group = some group then pure acc
    else do
      let original ← Image.original P io group
      pure { acc with group := some group, original }

/-- The comparison loop: whether some dirty sector differs from the base. -/
def compareSectors (P : Primitives) (io : Io) : Async Image Bool := do
  let img ← Image.self
  let acc ← img.dirty.keys.foldlM (compareSector P io)
    { changed := false, group := none, original := [] }
  pure acc.changed

/-- Returns false for unchanged; checked marks are cleared only after every comparison
    succeeds. -/
def beginSave (io : Io) : Async (Engine P) Bool := do
  let _ ← owner
  let e ← self
  require (e.build.isNone = true) (operation "A save is already being prepared")
  let changed ← onImage noDisk (compareSectors P io)
  check io
  if changed then do
    let size ← onImage noDisk (do pure (← Image.self).size)
    begin io none size
    pure true
  else do
    update fun e => { e with unchanged := some e.revision }
    pure false

def acceptUnchanged (io : Io) : Async (Engine P) Unit := do
  let _ ← owner
  check io
  let e ← self
  require (e.unchanged = some e.revision) (operation "Stale unchanged result")
  onImage .panic (modify fun (img, t) => ({ img with dirty := ∅ }, t))
  update fun e => { e with unchanged := none }

def header : Async (Engine P) Bytes := do
  let _ ← owner
  let e ← self
  match e.build with
  | none => fail (operation "No prepared save")
  | some b => pure b.header

/-- The plaintext of the next chunk: from the raw source of a create, from the image of a
    save. -/
def chunkSource (io : Io) (b : Build) (offset len : Nat) : Async (Engine P) Bytes :=
  match b.raw with
  | some source => exact io source offset len
  | none => onImage .panic (Image.read P io offset len)

def next (io : Io) : Async (Engine P) (Option Bytes) := do
  let _ ← owner
  check io
  let e ← self
  match e.build with
  | none => fail (operation "No prepared save")
  | some b => do
    require (b.revision = e.revision) (operation "Stale prepared save")
    let offset ← umul b.index CHUNK
    if b.size ≤ offset then pure none
    else do
      let rest ← usub b.size offset
      let bytes ← chunkSource io b offset (min rest CHUNK)
      let current ← unwrap (← self).build
      let salt ← draw io 32
      let result ← ofCrypto (current.disk.sealUnit P salt (unit b.index).val bytes)
      check io
      -- only now is the chunk done: a failure above leaves the index where it was
      let current ← unwrap (← self).build
      update fun e => { e with build := some { current with index := current.index + 1 } }
      pure (some result)

def accept (io : Io) (source : String) (total : Nat) : Async (Engine P) Unit := do
  let _ ← owner
  check io
  let e ← self
  match e.build with
  | none => fail (operation "No prepared save")
  | some b => do
    require (b.revision = e.revision ∧ b.index = divCeil b.size CHUNK)
      (operation "Stale or incomplete prepared save")
    let expected ← ofResult (fileSize b.size)
    require (total = expected) (corrupt "Assembled file length mismatch")
    let b ← unwrap (← self).build
    update fun e =>
      { e with build := none
               image := some { source, size := b.size, disk := b.disk, dirty := ∅, cache := Cache.new }
               revision := e.revision + 1
               hash := none }

def cancelled (e : Engine P) : Engine P :=
  { e with unchanged := none, build := none, hash := none }

def cancel : Async (Engine P) Unit := update cancelled

/-! ## §4. Reading and writing. -/

def read (io : Io) (offset len : Nat) : Async (Engine P) Bytes :=
  onImage noDisk (Image.read P io offset len)

/-- The old bytes of a sector that is only partly overwritten; a sector that is written
    whole needs none. -/
def oldSector (P : Primitives) (io : Io) (start actual : Nat) (whole : Bool) : Async Image Bytes :=
  if whole then pure (List.replicate actual 0) else Image.read P io start actual

/-- The staging loop of `write`: the new value of each touched sector, in a map of its own. -/
def stageLoop (P : Primitives) (io : Io) (offset : Nat) (bytes : Bytes) :
    Nat → Nat → Dirty → Async Image Dirty
  | 0, done, staged => if done < bytes.length then throw .diverged else pure staged
  | fuel + 1, done, staged =>
    if done < bytes.length then do
      check io
      let img ← Image.self
      let pos := offset + done
      let sector := pos / 512
      let start ← umul sector 512
      let rest ← usub img.size start
      let actual := min rest 512
      let inside ← usub pos start
      let room ← usub actual inside
      let left ← usub bytes.length done
      let n := min room left
      let value ← oldSector P io start actual (inside = 0 && n = actual)
      let src ← index bytes done (done + n)
      let value ← copyFromSlice value inside (inside + n) src
      stageLoop P io offset bytes fuel (done + n) (staged.insert sector value)
    else pure staged

/-- `image.dirty.extend(staged)`. -/
def extend (dirty staged : Dirty) : Dirty := dirty.insertMany staged.toList

/-- The part of `write` that works on the image: nothing is published before every sector is
    staged.  Returns whether anything was written. -/
def writeImage (P : Primitives) (io : Io) (offset : Nat) (bytes : Bytes) : Async Image Bool := do
  let img ← Image.self
  Image.bounds img offset bytes.length
  check io
  if bytes.isEmpty then pure false
  else do
    let staged ← stageLoop P io offset bytes bytes.length 0 ∅
    check io
    modify fun (img, t) => ({ img with dirty := extend img.dirty staged }, t)
    pure true

def write (io : Io) (offset : Nat) (bytes : Bytes) : Async (Engine P) Unit := do
  let wrote ← onImage noDisk (writeImage P io offset bytes)
  if wrote then update fun e => { e with revision := e.revision + 1 } else pure ()

def discard : Async (Engine P) Unit := do
  onImage noDisk (modify fun (img, t) => ({ img with dirty := ∅ }, t))
  update fun e => { e with revision := e.revision + 1 }
  cancel

def clearCache : Async (Engine P) Unit :=
  update fun e => { e with image := e.image.map fun i => { i with cache := Cache.new } }

/-! ## §5. Verification. -/

def verifyStart : Async (Engine P) Unit := do
  let _ ← describe
  update fun e => { e with hash := some ([], 0, e.revision) }

/-- Feed the chunk at `offset` of the image to the running hash. -/
def feed (io : Io) (offset size : Nat) : Async (Engine P) Unit :=
  if offset < size then do
    let rest ← usub size offset
    let b ← onImage .panic (Image.read P io offset (min rest CHUNK))
    let (fed, index, revision) ← unwrap (← self).hash
    update fun e => { e with hash := some (fed ++ b, index + 1, revision) }
  else pure ()

/-- `self.hash.take().unwrap().0.finalize()`. -/
def finishHash : Async (Engine P) Bytes := do
  let e ← self
  let (fed, _, _) ← unwrap e.hash
  update fun e => { e with hash := none }
  pure (P.sha256 fed)

def verifyStep (io : Io) : Async (Engine P) (Option Bytes) := do
  check io
  let e ← self
  match e.hash with
  | none => fail (operation "No verification in progress")
  | some (_, index, revision) => do
    require (revision = e.revision) (operation "Stale verification")
    let offset ← umul index CHUNK
    let description ← describe
    feed io offset description.size
    if description.size ≤ offset + CHUNK then do
      check io
      let hash ← finishHash
      pure (some hash)
    else pure none

/-! ## §6. Machine states (`snapshot.rs`). -/

def stateBase (io : Io) : Async (Engine P) Bytes := do
  let source ← onImage noDisk (do pure (← Image.self).source)
  exact io source 0 HEADER

/-- The overlay, one record per dirty sector: sector LE64, length LE32, bytes. -/
def overlayBytes (dirty : Dirty) : Bytes :=
  dirty.toList.flatMap fun e => leBytes 8 e.1 ++ leBytes 4 e.2.length ++ e.2

def stateOverlay : Async (Engine P) Bytes := do
  let _ ← owner
  onImage noDisk (do pure (overlayBytes (← Image.self).dirty))

/-- The parsing loop of `fork_state` over the bytes still unread. -/
def parseOverlay (size : Nat) : Nat → Option Nat → Dirty → Bytes → Except Error Dirty
  | 0, _, dirty, bytes => if bytes.isEmpty then .ok dirty else .error (corrupt "Truncated state sector")
  | fuel + 1, previous, dirty, bytes =>
    if bytes.isEmpty then .ok dirty
    else if bytes.length < 12 then .error (corrupt "Truncated state sector")
    else
      let sector := leNat (slice bytes 0 8)
      let len := leNat (slice bytes 8 4)
      let rest := bytes.drop 12
      if 2 ^ 64 ≤ sector * 512 then .error (corrupt "State sector overflow")
      else if size ≤ sector * 512 ∨ (∃ p ∈ previous, sector ≤ p)
          ∨ len ≠ min (size - sector * 512) 512 ∨ rest.length < len then
        .error (corrupt "Invalid state sector")
      else
        parseOverlay size fuel (some sector) (dirty.insert sector (slice rest 0 len)) (rest.drop len)

/-- Validate completely before creating an independent candidate. -/
def forkState (bytes : Bytes) : Async (Engine P) (Engine P) := do
  let e ← self
  require (e.build.isNone = true) (operation "Disk save in progress")
  match e.image with
  | none => throw noDisk
  | some img => do
    let dirty ← ofResult (parseOverlay img.size bytes.length none ∅ bytes)
    let key ← ofCrypto img.disk.exportReadKey
    let disk ← ofCrypto (Crypto.Disk.fromReadKey key)
    pure { identity := e.identity
           image := some { source := img.source, size := img.size, disk, dirty, cache := Cache.new }
           build := none
           revision := e.revision + 1
           hash := none
           unchanged := none }

def sealState (io : Io) (context bytes : Bytes) : Async (Engine P) Bytes := do
  let _ ← owner
  let disk ← onImage noDisk (do pure (← Image.self).disk)
  let salt ← draw io 32
  ofCrypto (disk.sealSnapshot P salt context bytes)

def openState (context bytes : Bytes) : Async (Engine P) Bytes := do
  let disk ← onImage noDisk (do pure (← Image.self).disk)
  ofResult <| (disk.openSnapshot P context bytes).mapError fun _ =>
    corrupt "State authentication failed"

end Engine

/-! ## §7. Calls. -/

/-- The calls that act on an engine in place. -/
inductive Call where
  | openDisk (source : String) (total : Nat)
  | beginCreate (source : String) (size : Nat)
  | beginSave
  | acceptUnchanged
  | next
  | accept (source : String) (total : Nat)
  | cancel
  | read (offset len : Nat)
  | write (offset : Nat) (bytes : Bytes)
  | discard
  | clearCache
  | verifyStart
  | verifyStep
  deriving DecidableEq

/-- What a call that returned, returned. -/
inductive Value where
  | unit
  | bool (b : Bool)
  | bytes (b : Bytes)
  | maybe (b : Option Bytes)
  deriving DecidableEq

/-- The method a call names. -/
def Call.run (io : Io) : Call → Async (Engine P) Value
  | .openDisk source total => (fun _ => .unit) <$> Engine.openDisk io source total
  | .beginCreate source size => (fun _ => .unit) <$> Engine.beginCreate io source size
  | .beginSave => .bool <$> Engine.beginSave io
  | .acceptUnchanged => (fun _ => .unit) <$> Engine.acceptUnchanged io
  | .next => .maybe <$> Engine.next io
  | .accept source total => (fun _ => .unit) <$> Engine.accept io source total
  | .cancel => (fun _ => .unit) <$> Engine.cancel
  | .read offset len => .bytes <$> Engine.read io offset len
  | .write offset bytes => (fun _ => .unit) <$> Engine.write io offset bytes
  | .discard => (fun _ => .unit) <$> Engine.discard
  | .clearCache => (fun _ => .unit) <$> Engine.clearCache
  | .verifyStart => (fun _ => .unit) <$> Engine.verifyStart
  | .verifyStep => .maybe <$> Engine.verifyStep io

/-- One call with its own host: the result, and the engine it leaves. -/
def Engine.step (e : Engine P) (io : Io) (c : Call) : Except Stop Value × Engine P :=
  match c.run io (e, 0) with
  | .ok v s => (.ok v, s.1)
  | .error stop s => (.error stop, s.1)

end My98.Disk
