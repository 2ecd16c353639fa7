/-
  My98.Web.StateFormat — the file of a machine state (`src/disk/web/state-format.js`).

  A state is compressed, cut into pieces of 1 MiB, and each piece is sealed under the header of the
  file and its position.  `decodeState` undoes this without ever holding the file: it reads the header
  from the stream, and then three parties run side by side.  `pull` reads the records, opens them and
  hands small pieces to the decompressor; the decompressor, which is the browser's, gives output when
  it likes; and the function itself reads that output into three arrays.

  Each turn of a loop that awaits is an event of its own, so any other party may run in between.  How
  the stream is cut into chunks, when the signal aborts, which call of `check` throws, and what the
  decompressor does is up to the run.

    • `Reader`      — the class `StateReader`, over any stream;
    • `encodeState` — the writer;
    • `step`        — the reader, one event at a time.
-/
import Mathlib
import My98.Lib.Machine
import My98.Lib.Prog
import My98.Web.LoadProfiles
import My98.Web.TorrentProtocol

namespace My98.Web.StateFormat

open My98.Lib My98.Lib.JsonText My98.Torrent.DescriptorText My98.Torrent.Formats My98.Web.LoadProfiles

/-! ## §1. Constants and errors. -/

/-- `MY98STAT`. -/
def MAGIC : Bytes := [77, 89, 57, 56, 83, 84, 65, 84]

/-- 1 MiB. -/
def CHUNK : Nat := 1048576

/-- 1 GiB. -/
def LIMIT : Nat := 1073741824

def invalid (message : String) : Fail := ⟨"INVALID_STATE", message⟩

/-- What `check` throws. -/
def cancelled : Fail := ⟨"CANCELLED", "Operation cancelled"⟩

/-- What the language itself throws. -/
def typeError : Fail := ⟨"", "TypeError"⟩

def syntaxError : Fail := ⟨"", "SyntaxError"⟩

/-- `u32(n)`. -/
def u32 (n : Nat) : Bytes := leBytes 4 n

/-- `number(b)`, of four bytes. -/
def number (b : Bytes) : Nat := leNat b

/-- What a record is bound to: the header of the file and the position of the record. -/
def context (header : Bytes) (index : Nat) : Bytes := header ++ u32 index

/-- `Math.ceil(h.packed/CHUNK)`. -/
def records (packed : Nat) : Nat := (packed + (CHUNK - 1)) / CHUNK

/-- The size of a file with a header of `length` bytes. -/
def expected (length packed : Nat) : Nat := 12 + length + packed + records packed * 62

/-! ## §2. The writer. -/

/-- `enc.encode(JSON.stringify(v))`. -/
def encodeJson (v : Tree) : Bytes := encodeText (String.ofList ((print v).map Char.ofNat))

def natural (n : Nat) : Tree := .num (numeral n)

/-- `{...fields, [name]: v}`: a field that is there keeps its place. -/
def setField (fields : List (Units × Tree)) (name : Units) (v : Tree) : List (Units × Tree) :=
  if fields.any fun f => decide (utf16Value f.1 = name) then
    fields.map fun f => if utf16Value f.1 = name then (f.1, v) else f
  else fields ++ [(name, v)]

/-- `{...metadata, stateLength, overlayLength}`. -/
def withLengths (metadata : List (Units × Tree)) (stateLength overlayLength : Nat) : List (Units × Tree) :=
  setField (setField metadata (units "stateLength") (natural stateLength)) (units "overlayLength")
    (natural overlayLength)

/-- The header of the file. -/
def headerOf (base nonce : Bytes) (raw packed : Nat) : Tree :=
  .obj [(units "version", natural 1), (units "base", .arr (base.map fun b => natural b.toNat)),
    (units "nonce", .arr (nonce.map fun b => natural b.toNat)), (units "raw", natural raw),
    (units "packed", natural packed)]

/-- The calls of the Vault and of the browser that `encodeState` makes. -/
structure Writer where
  stateOverlay : Except Fail Bytes
  stateBase : Except Fail Bytes
  /-- `seal_state`, which draws a salt at every call. -/
  sealState : Nat → Bytes → Bytes → Except Fail Bytes
  /-- The chunks of the `CompressionStream`, and how it ends. -/
  compress : Bytes → List Bytes × Option Fail
  nonce : Bytes
  /-- Which calls of `check` throw. -/
  refuses : Nat → Bool

/-- `encodeState` up to where it ends, and how often it has called `check`. -/
abbrev Writing := EStateM Fail Nat

/-- `check()`. -/
def Writer.check (w : Writer) : Writing Unit := do
  let calls ← get
  set (calls + 1)
  if w.refuses calls then throw cancelled

/-- A call that answers at once. -/
def call {α : Type} : Except Fail α → Writing α
  | .ok a => pure a
  | .error e => throw e

/-- `collect(stream, LIMIT, check, progress)`. -/
def Writer.collect (w : Writer) (chunks : List Bytes × Option Fail) : Writing Bytes := do
  let parts ← chunks.1.foldlM (fun (parts : Bytes) value => do
    w.check
    w.check
    if LIMIT < (parts ++ value).length then throw (invalid "State exceeds the supported size")
    pure (parts ++ value)) []
  w.check
  match chunks.2 with
  | some e => throw e
  | none => do
    w.check
    pure parts

def Writer.encodeState (w : Writer) (metadata : List (Units × Tree)) (state : Bytes) : Writing Bytes := do
  if state = [] ∨ LIMIT < state.length then throw (invalid "Invalid machine state")
  let overlay ← call w.stateOverlay
  let text := encodeJson (.obj (withLengths metadata state.length overlay.length))
  if 65536 < text.length then throw (invalid "State metadata exceeds the supported size")
  let raw := u32 text.length ++ text ++ state ++ overlay
  if LIMIT < raw.length then throw (invalid "State exceeds 1 GiB uncompressed")
  w.check
  let compressed ← w.collect (w.compress raw)
  let base ← call w.stateBase
  w.check
  let header := encodeJson (headerOf base w.nonce raw.length compressed.length)
  (List.range (records compressed.length)).foldlM (fun (parts : Bytes) index => do
    w.check
    let sealed ← call (w.sealState index (context header index) (slice compressed (index * CHUNK) CHUNK))
    w.check
    pure (parts ++ sealed)) (MAGIC ++ u32 header.length ++ header)

/-! ## §3. Streams and their readers. -/

/-- One chunk of a stream. -/
inductive Item where
  | bytes (b : Bytes)
  /-- No `Uint8Array`. -/
  | other

/-- How a stream goes on behind its chunks. -/
inductive Tail where
  /-- More may come. -/
  | pending
  | done
  | failed (e : Fail)

structure Stream where
  items : List Item
  tail : Tail

/-- A stream that is written to later. -/
def Stream.empty : Stream := { items := [], tail := .pending }

/-- How a `reader.read()` settles. -/
inductive Answer where
  | value (item : Item)
  | done
  | failed (e : Fail)

/-- The arrays that the readers fill. -/
inductive Part where
  | head
  | header
  | sealed
  | metaLength
  | metadata
  | state
  | overlay
  deriving DecidableEq, Repr

/-- Their contents; nothing, before the array is allocated. -/
abbrev Store := Part → Bytes

def Store.put (store : Store) (part : Part) (b : Bytes) : Store := Function.update store part b

/-- `new Uint8Array(size)`. -/
def Store.allocate (store : Store) (part : Part) (size : Nat) : Store :=
  store.put part (List.replicate size 0)

/-- A method of the reader that is under way. -/
inductive Job where
  /-- `into(bytes)`, with the variable `offset`. -/
  | into (part : Part) (pos : Nat)
  /-- `end()`. -/
  | finish
  deriving DecidableEq, Repr

/-- Where it stands: at the head of its loop, at the `read` in `available`, or at the timer. -/
inductive Stage where
  | loop
  | waiting
  | resting
  deriving DecidableEq, Repr

/-- A `StateReader`, and what can be seen of it from outside: the chunks it was given, and the bytes it
has copied out of them. -/
structure Reader where
  stream : Stream
  /-- The stream was cancelled. -/
  closed : Bool
  max : Nat
  chunk : Bytes
  offset : Nat
  received : Nat
  copied : Nat
  task : Option (Job × Stage)
  taken : List Bytes
  out : Bytes

def Reader.new (stream : Stream) (max : Nat) : Reader :=
  { stream, closed := false, max, chunk := [], offset := 0, received := 0, copied := 0, task := none, taken := [], out := [] }

/-- `close()`. -/
def Reader.close (r : Reader) : Reader := { r with closed := true }

/-- How the next `reader.read()` settles, and the stream behind it; `none` when it does not yet. -/
def Reader.next (r : Reader) : Option (Answer × Stream) :=
  if r.closed then some (.done, r.stream)
  else
    match r.stream.items with
    | item :: items => some (.value item, { r.stream with items })
    | [] =>
      match r.stream.tail with
      | .pending => none
      | .done => some (.done, r.stream)
      | .failed e => some (.failed e, r.stream)

/-- What one turn of a method comes to. -/
inductive Outcome where
  | goes (r : Reader) (store : Store)
  | returns (r : Reader)
  | throws (r : Reader) (e : Fail)

/-- The end of the loop of `into`: copy what the chunk has, and let others run after every 8 MiB. -/
def Reader.copy (r : Reader) (store : Store) (part : Part) (pos : Nat) : Outcome :=
  let count := min ((store part).length - pos) (r.chunk.length - r.offset)
  let piece := slice r.chunk r.offset count
  let rests := decide (8 * CHUNK ≤ r.copied + count)
  .goes
    { r with
      offset := r.offset + count
      copied := if rests then 0 else r.copied + count
      task := some (.into part (pos + count), if rests then .resting else .loop)
      out := r.out ++ piece }
    (store.put part (splice (store part) pos piece))

/-- The head of the loop of `into`, or of `end`. -/
def Reader.turn (r : Reader) (store : Store) (refused : Bool) : Option Outcome :=
  match r.task with
  | some (.into part pos, .loop) =>
    some
      (if (store part).length ≤ pos then .returns { r with task := none }
      else if refused then .throws { r with task := none } cancelled
      else if r.offset = r.chunk.length then .goes { r with task := some (.into part pos, .waiting) } store
      else r.copy store part pos)
  | some (.finish, .loop) =>
    some
      (if refused then .throws { r with task := none } cancelled
      else if r.offset = r.chunk.length then .goes { r with task := some (.finish, .waiting) } store
      else .throws { r with task := none } (invalid "Trailing state bytes"))
  | _ => none

/-- A chunk has come; an empty one leaves `available` in its loop. -/
def Reader.receive (r : Reader) (store : Store) (job : Job) (b : Bytes) : Outcome :=
  let got := { r with received := r.received + b.length, taken := r.taken ++ [b] }
  if r.max < got.received then .throws { got with task := none } (invalid "State exceeds its declared size")
  else
    let next := { got with chunk := b, offset := 0 }
    if b = [] then .goes { next with task := some (job, .waiting) } store
    else
      match job with
      | .into part pos => next.copy store part pos
      | .finish => .throws { next with task := none } (invalid "Trailing state bytes")

/-- The `await` in `available` has an answer. -/
def Reader.answer (r : Reader) (store : Store) (refused : Bool) : Option Outcome :=
  match r.task with
  | some (job, .waiting) =>
    match r.next with
    | none => none
    | some (answer, stream) =>
      let r := { r with stream }
      some
        (match answer with
        | .failed e => .throws { r with task := none } e
        | .done =>
          if refused then .throws { r with task := none } cancelled
          else
            match job with
            | .into _ _ => .throws { r with task := none } (invalid "Truncated state")
            | .finish => .returns { r with task := none }
        | .value item =>
          if refused then .throws { r with task := none } cancelled
          else
            match item with
            | .other => .throws { r with task := none } (invalid "Invalid state stream")
            | .bytes b => r.receive store job b)
  | _ => none

/-- The timer in `into` has run. -/
def Reader.rest (r : Reader) (store : Store) (refused : Bool) : Option Outcome :=
  match r.task with
  | some (job, .resting) =>
    some
      (if refused then .throws { r with task := none } cancelled
      else .goes { r with task := some (job, .loop) } store)
  | _ => none

/-! ## §4. `decodeState`. -/

/-- The calls of the Vault that `decodeState` makes. -/
structure Vault where
  base : Bytes
  openState : Bytes → Bytes → Except Fail Bytes

/-- A `DecompressionStream`: what it may do once it was handed some of `fed` and has given `given`. -/
structure Inflater where
  emits : (fed given next : Bytes) → Bool
  ends : (fed given : Bytes) → Bool
  fails : (fed given : Bytes) → Fail → Bool

structure Setup where
  vault : Vault
  sha256 : Bytes → Bytes
  inflater : Inflater

/-- What `decodeState` returns. -/
structure Decoded where
  metadata : Tree
  state : Bytes
  overlay : Bytes
  stateSha256 : String

/-- The sizes in the header of the file. -/
structure Sizes where
  raw : Nat
  packed : Nat
  deriving DecidableEq, Repr

/-- `file.size`: absent, a safe integer, or anything else. -/
inductive Declared where
  | absent
  | integer (n : Int)
  | other
  deriving DecidableEq, Repr

/-- `file`, with a stream; a locked one has a reader already. -/
structure File where
  size : Declared
  stream : Stream
  locked : Bool

/-- The argument `input`. -/
inductive Input where
  | url
  /-- A `Blob`, or an object with a stream. -/
  | file (f : File)
  /-- Anything without a stream. -/
  | other

/-- What `fetch` answers. -/
structure Response where
  ok : Bool
  status : Nat
  body : Option Stream

inductive Compressed where
  /-- The stream is not made yet. -/
  | absent
  | readable
  | closed
  | errored
  | cancelled
  deriving DecidableEq, Repr

/-- What `pull` is doing. -/
inductive Pull where
  | idle
  /-- It awaits its reader. -/
  | reading
  /-- It awaits its timer. -/
  | resting
  deriving DecidableEq, Repr

/-- Where the function stands. -/
inductive Pc where
  | entry
  | fetching
  | head
  | header
  | base
  | metaLength
  | metadata
  | state
  | overlay
  | last
  /-- In `finally`. -/
  | closing (result : Except Fail Decoded)
  | settled (result : Except Fail Decoded)

/-- The variables of `decodeState`, with `opened`, `fed` and `given` for what can be seen from outside:
what `open_state` was given and has returned, what the decompressor was handed, and what it gave. -/
structure State where
  pc : Pc
  input : Input
  file : Option File
  source : Reader
  raw : Reader
  store : Store
  sizes : Sizes
  metadata : Tree
  listening : Bool
  aborted : Bool
  hashed : Bytes
  compressed : Compressed
  pull : Pull
  index : Nat
  pending : Option Bytes
  position : Nat
  opened : List (Bytes × Bytes)
  fed : List Bytes
  given : List Bytes

/-- A reader that is not made yet. -/
def Reader.absent : Reader := Reader.new .empty 0

def State.start (input : Input) : State :=
  { pc := .entry, input, file := none, source := .absent, raw := .absent, store := fun _ => [],
    sizes := ⟨0, 0⟩, metadata := .null, listening := false, aborted := false, hashed := [],
    compressed := .absent, pull := .idle, index := 0, pending := none, position := 0, opened := [],
    fed := [], given := [] }

/-- Does this call of `check` throw?  It always does once the signal has aborted. -/
def State.refused (s : State) (throws : Bool) : Bool := s.aborted || throws

/-- An exception inside of `try`, up to the `await` in `finally`. -/
def State.fail (s : State) (e : Fail) : State :=
  { s with
    pc := .closing (.error e)
    listening := false
    source := s.source.close
    raw := { s.raw.close with task := none } }

/-- An exception before `try`. -/
def State.reject (s : State) (e : Fail) : State := { s with pc := .settled (.error e) }

def State.discard (s : State) : State := { s with pending := none, position := 0 }

/-- The `catch` of `pull`. -/
def State.failPull (s : State) : State :=
  { s.discard with
    pull := .idle
    compressed := if s.compressed = .readable then .errored else s.compressed
    source := s.source.close }

def Reader.into (r : Reader) (part : Part) : Reader := { r with task := some (.into part 0, .loop) }

/-- `file.size` is in order, and what is not a size passes only if it is absent. -/
def Declared.ok : Declared → Bool
  | .absent => true
  | .integer n => decide (12 ≤ n ∧ n ≤ LIMIT + 65536)
  | .other => false

/-- `file.size!==undefined && file.size!==expected`. -/
def Declared.differs (size : Declared) (expected : Nat) : Bool :=
  match size with
  | .absent => false
  | .integer n => decide (n ≠ expected)
  | .other => true

/-- From the check of the size to the first `await source.read`.  The stream of an invalid file is
cancelled, which does nothing to a locked one. -/
def State.accept (s : State) (f : File) (throws : Nat → Bool) : State :=
  if f.size.ok = false then
    { s.reject (invalid "Invalid state file size") with
      file := some f, source := if f.locked then s.source else s.source.close }
  else if f.locked then { s.reject typeError with file := some f }
  else
    let s := { s with
      file := some f, source := .new f.stream (LIMIT + 65536), listening := true, pc := .head }
    if s.refused (throws 1) ∨ s.refused (throws 2) then s.fail cancelled
    else { s with source := .into s.source .head, store := s.store.allocate .head 12 }

/-- Up to the first `await`. -/
def State.enter (s : State) (throws : Nat → Bool) : State :=
  if s.refused (throws 0) then s.reject cancelled
  else
    match s.input with
    | .url => { s with pc := .fetching }
    | .file f => s.accept f throws
    | .other => s.reject (invalid "Invalid state file size")

/-- `fetch` has answered. -/
def State.respond (s : State) (response : Except Fail Response) (throws : Nat → Bool) : State :=
  match response with
  | .error e => s.reject e
  | .ok response =>
    match response.ok, response.body with
    | true, some body => s.accept { size := .absent, stream := body, locked := false } throws
    | _, _ => s.reject (invalid s!"Could not download state ({response.status})")

/-- `await source.read(12)` has returned. -/
def State.onHead (s : State) (throws : Nat → Bool) : State :=
  let length := number (slice (s.store .head) 8 4)
  if s.refused (throws 2) then s.fail cancelled
  else if (s.store .head).take 8 ≠ MAGIC then s.fail (invalid "Unsupported state format")
  else if length < 1 ∨ 4096 < length then s.fail (invalid "Invalid state header")
  else if s.refused (throws 3) then s.fail cancelled
  else
    { s with pc := .header, source := .into s.source .header, store := s.store.allocate .header length }

/-- `JSON.parse(dec.decode(bytes))`. -/
def parseJson (bytes : Bytes) : Except Fail Tree :=
  match decodeText bytes with
  | none => .error typeError
  | some _ =>
    match parseBytes bytes with
    | none => .error syntaxError
    | some v => .ok v

/-- `v[name]`, if it is a safe integer. -/
def safeProp (v : Tree) (name : String) : Option Int := safeInteger? ((prop v name).bind jsNumber)

def isNull : Tree → Bool
  | .null => true
  | _ => false

/-- The version and the sizes of the header. -/
def sizesOf (h : Tree) : Except Fail Sizes :=
  if isNull h then .error typeError
  else if (prop h "version").bind jsNumber ≠ some 1 then .error (invalid "Unsupported state size or version")
  else
    match safeProp h "raw", safeProp h "packed" with
    | some raw, some packed =>
      if raw < 4 ∨ LIMIT < raw ∨ packed < 1 ∨ LIMIT < packed then
        .error (invalid "Unsupported state size or version")
      else .ok ⟨raw.toNat, packed.toNat⟩
    | _, _ => .error (invalid "Unsupported state size or version")

/-- `Array.isArray(h.base) && h.base.length===base.length && base.every((v,i)=>v===h.base[i])`. -/
def sameBase (h : Tree) (base : Bytes) : Bool :=
  match (prop h "base").bind list? with
  | some items => decide (items.map jsNumber = base.map fun b => some (b.toNat : ℚ))
  | none => false

/-- `await source.read(length)` has returned. -/
def State.onHeader (s : State) : State :=
  let s := { s with hashed := s.store .head ++ s.store .header }
  match parseJson (s.store .header) >>= sizesOf with
  | .error e => s.fail e
  | .ok sizes => { s with sizes, pc := .base }

/-- The header, once it was parsed. -/
def State.headerTree (s : State) : Tree := (parseBytes (s.store .header)).getD .null

def State.declared (s : State) : Declared :=
  match s.file with
  | some f => f.size
  | none => .absent

/-- `await vault.state_base()` has settled. -/
def State.onBase (setup : Setup) (s : State) (failed : Option Fail) (throws : Nat → Bool) : State :=
  let total := expected (s.store .header).length s.sizes.packed
  match failed with
  | some e => s.fail e
  | none =>
    if s.refused (throws 0) then s.fail cancelled
    else if sameBase s.headerTree setup.vault.base = false then
      s.fail (invalid "State belongs to a different base disk")
    else if LIMIT + 65536 < total ∨ s.declared.differs total = true then
      s.fail (invalid "Truncated state or trailing bytes")
    else
      let s := { s with
        pc := .metaLength
        source := { s.source with max := total }
        compressed := .readable
        raw := .new .empty s.sizes.raw }
      if s.refused (throws 1) then s.fail cancelled
      else { s with raw := .into s.raw .metaLength, store := s.store.allocate .metaLength 4 }

/-- `await raw.read(4)` has returned. -/
def State.onMetaLength (s : State) (throws : Nat → Bool) : State :=
  let metaLength := number (s.store .metaLength)
  if 65536 < metaLength ∨ s.sizes.raw < metaLength + 4 then s.fail (invalid "Invalid state metadata")
  else if s.refused (throws 2) then s.fail cancelled
  else
    { s with
      pc := .metadata
      raw := .into s.raw .metadata
      store := s.store.allocate .metadata metaLength }

/-- The lengths of the two sections behind the metadata. -/
def sectionsOf (metadata : Tree) (metaLength raw : Nat) : Except Fail (Nat × Nat) :=
  if isNull metadata then .error typeError
  else
    match safeProp metadata "stateLength", safeProp metadata "overlayLength" with
    | some stateLength, some overlayLength =>
      if stateLength < 1 ∨ overlayLength < 0 ∨ 4 + metaLength + stateLength + overlayLength ≠ (raw : ℤ) then
        .error (invalid "Invalid state sections")
      else .ok (stateLength.toNat, overlayLength.toNat)
    | _, _ => .error (invalid "Invalid state sections")

/-- `await raw.read(metaLength)` has returned. -/
def State.onMetadata (s : State) (throws : Nat → Bool) : State :=
  match parseJson (s.store .metadata) with
  | .error e => s.fail e
  | .ok metadata =>
    match sectionsOf metadata (s.store .metadata).length s.sizes.raw with
    | .error e => s.fail e
    | .ok (stateLength, overlayLength) =>
      if s.refused (throws 2) then s.fail cancelled
      else
        { s with
          metadata
          pc := .state
          raw := .into s.raw .state
          store := (s.store.allocate .state stateLength).allocate .overlay overlayLength }

def State.onState (s : State) : State := { s with pc := .overlay, raw := .into s.raw .overlay }

def State.onOverlay (s : State) : State :=
  { s with pc := .last, raw := { s.raw with task := some (.finish, .loop) } }

/-- `await raw.end()` has returned. -/
def State.onEnd (setup : Setup) (s : State) (throws : Nat → Bool) : State :=
  if s.refused (throws 2) then s.fail cancelled
  else if s.raw.received ≠ s.sizes.raw ∨
      s.source.received ≠ expected (s.store .header).length s.sizes.packed then
    s.fail (invalid "Invalid state length")
  else
    let result : Decoded :=
      { metadata := s.metadata, state := s.store .state, overlay := s.store .overlay,
        stateSha256 := hex (setup.sha256 s.hashed) }
    { s with
      pc := .closing (.ok result)
      listening := false
      source := s.source.close
      raw := s.raw.close }

/-- `controller.enqueue(pending.slice(position,end))`. -/
def State.enqueue (s : State) (pending : Bytes) : State :=
  if s.compressed ≠ .readable then s.failPull
  else
    let stop := min (s.position + 16384) pending.length
    let s := { s with
      fed := s.fed ++ [slice pending s.position (stop - s.position)]
      position := stop
      pull := .idle }
    if stop = pending.length then s.discard else s

/-- `pull`, up to its first `await`. -/
def State.onPull (s : State) (throws : Nat → Bool) : State :=
  if s.refused (throws 0) then s.failPull
  else
    match s.pending with
    | some pending => s.enqueue pending
    | none =>
      if s.index = records s.sizes.packed then
        { s with pull := .reading, source := { s.source with task := some (.finish, .loop) } }
      else if s.refused (throws 1) then s.failPull
      else
        { s with
          pull := .reading
          source := .into s.source .sealed
          store := s.store.allocate .sealed (min CHUNK (s.sizes.packed - s.index * CHUNK) + 62) }

/-- `await source.read(size)` has returned, in `pull`. -/
def State.onSealed (setup : Setup) (s : State) : State :=
  let sealed := s.store .sealed
  let index := s.index
  let s := { s with hashed := s.hashed ++ sealed, index := s.index + 1 }
  match setup.vault.openState (context (s.store .header) index) sealed with
  | .error _ => s.failPull
  | .ok plain =>
    if plain.length ≠ sealed.length - 62 then s.failPull
    else
      { s with pending := some plain, pull := .resting, opened := s.opened ++ [(sealed, plain)] }

/-- The timer in `pull` has run. -/
def State.onPulled (s : State) (throws : Nat → Bool) : State :=
  if s.refused (throws 0) then s.failPull
  else
    match s.pending with
    | some pending => s.enqueue pending
    | none => s.failPull

/-- `await source.end()` has returned, in `pull`. -/
def State.onSourceEnd (s : State) : State :=
  if s.compressed = .readable then { s with compressed := .closed, pull := .idle } else s.failPull

/-! ## §5. Events. -/

inductive Side where
  | source
  | raw
  deriving DecidableEq, Repr

/-- In every event `throws` says which calls of `check` throw; the calls are numbered. -/
inductive Event where
  | enter (throws : Nat → Bool)
  /-- `fetch` settles. -/
  | respond (response : Except Fail Response) (throws : Nat → Bool)
  | turn (side : Side) (throws : Nat → Bool)
  | answer (side : Side) (throws : Nat → Bool)
  | rest (side : Side) (throws : Nat → Bool)
  /-- `vault.state_base()` settles. -/
  | base (failed : Option Fail) (throws : Nat → Bool)
  /-- The stream calls `pull`, which it does not while a call is under way. -/
  | pull (throws : Nat → Bool)
  | pulled (throws : Nat → Bool)
  /-- The decompressor gives a chunk, ends, or fails. -/
  | inflate (b : Bytes)
  | inflated
  | corrupt (e : Fail)
  /-- The error of one end of the pipe reaches the other. -/
  | broken (e : Fail)
  | cancel
  | abort
  /-- The `await` in `finally` is over. -/
  | closed

def State.reader (s : State) : Side → Reader
  | .source => s.source
  | .raw => s.raw

def State.setReader (s : State) (side : Side) (r : Reader) : State :=
  match side with
  | .source => { s with source := r }
  | .raw => { s with raw := r }

/-- The method has returned to its caller. -/
def State.returned (setup : Setup) (s : State) (side : Side) (job : Job) (throws : Nat → Bool) : State :=
  match side, job with
  | .source, .into .head _ => s.onHead throws
  | .source, .into .header _ => s.onHeader
  | .source, .into _ _ => s.onSealed setup
  | .source, .finish => s.onSourceEnd
  | .raw, .into .metaLength _ => s.onMetaLength throws
  | .raw, .into .metadata _ => s.onMetadata throws
  | .raw, .into .state _ => s.onState
  | .raw, .into _ _ => s.onOverlay
  | .raw, .finish => s.onEnd setup throws

/-- The method has thrown to its caller. -/
def State.thrown (s : State) (side : Side) (job : Job) (e : Fail) : State :=
  match side, job with
  | .source, .into .head _ => s.fail e
  | .source, .into .header _ => s.fail e
  | .source, _ => s.failPull
  | .raw, _ => s.fail e

/-- A turn of the reader, and what becomes of it. -/
def State.perform (setup : Setup) (s : State) (side : Side) (throws : Nat → Bool)
    (turn : Reader → Store → Bool → Option Outcome) : Option State :=
  match (s.reader side).task, turn (s.reader side) s.store (s.refused (throws 0)) with
  | some (job, _), some outcome =>
    some
      (match outcome with
      | .goes r store => { s.setReader side r with store }
      | .returns r => (s.setReader side r).returned setup side job throws
      | .throws r e => (s.setReader side r).thrown side job e)
  | _, _ => none

/-- The output of the decompressor fails, and what is queued in it is gone. -/
def State.breakRaw (s : State) (e : Fail) : State :=
  { s with raw := { s.raw with stream := { s.raw.stream with items := [], tail := .failed e } } }

/-- `fill(0)` of an array that was allocated. -/
def Store.zero (store : Store) (part : Part) : Store := store.allocate part (store part).length

def isPending : Tail → Bool
  | .pending => true
  | _ => false

def step (setup : Setup) (s : State) : Event → Option State
  | .enter throws =>
    match s.pc with
    | .entry => some (s.enter throws)
    | _ => none
  | .respond response throws =>
    match s.pc with
    | .fetching => some (s.respond response throws)
    | _ => none
  | .turn side throws => s.perform setup side throws Reader.turn
  | .answer side throws => s.perform setup side throws Reader.answer
  | .rest side throws => s.perform setup side throws Reader.rest
  | .base failed throws =>
    match s.pc with
    | .base => some (s.onBase setup failed throws)
    | _ => none
  | .pull throws =>
    if s.compressed = .readable ∧ s.pull = .idle then some (s.onPull throws) else none
  | .pulled throws => if s.pull = .resting then some (s.onPulled throws) else none
  | .inflate b =>
    if s.compressed ≠ .absent ∧ isPending s.raw.stream.tail = true ∧ b ≠ [] ∧
        setup.inflater.emits s.fed.flatten s.given.flatten b = true then
      some { s with
        given := s.given ++ [b]
        raw := { s.raw with stream := { s.raw.stream with items := s.raw.stream.items ++ [.bytes b] } } }
    else none
  | .inflated =>
    if s.compressed = .closed ∧ isPending s.raw.stream.tail = true ∧
        setup.inflater.ends s.fed.flatten s.given.flatten = true then
      some { s with raw := { s.raw with stream := { s.raw.stream with tail := .done } } }
    else none
  | .corrupt e =>
    if s.compressed ≠ .absent ∧ isPending s.raw.stream.tail = true ∧
        setup.inflater.fails s.fed.flatten s.given.flatten e = true then
      some (s.breakRaw e)
    else none
  | .broken e =>
    if s.compressed = .errored ∧ isPending s.raw.stream.tail = true then some (s.breakRaw e) else none
  | .cancel =>
    match s.compressed, s.raw.closed, s.raw.stream.tail with
    | .readable, true, _ => some { s.discard with compressed := .cancelled, source := s.source.close }
    | .readable, _, .failed _ => some { s.discard with compressed := .cancelled, source := s.source.close }
    | _, _, _ => none
  | .abort =>
    some
      (if s.listening then
        { s with aborted := true, listening := false, source := s.source.close, raw := s.raw.close }
      else { s with aborted := true })
  | .closed =>
    match s.pc with
    | .closing (.ok result) => some { s with pc := .settled (.ok result) }
    | .closing (.error e) =>
      some { s with pc := .settled (.error e), store := (s.store.zero .state).zero .overlay }
    | _ => none

end My98.Web.StateFormat
