/-
  My98.Web.StateInvariant — how far the three parties of `decodeState` have come.

  While the function runs, everything that was taken from the stream of the file is accounted for: the
  twelve bytes, the header, the records that were hashed and opened, and what is under way.  The
  plaintexts of the records are what the decompressor was handed and what is pending.  Once anything has
  gone wrong with a record, nothing more is promised of the source, and the decompressor never ends.

    • `Live` — the invariant, while the function runs;
    • `Inv`  — and what it returns.
-/
import Mathlib
import My98.Web.StateReader

namespace My98.Web.StateFormat

open My98.Lib My98.Lib.JsonText My98.Torrent.DescriptorText My98.Torrent.Formats My98.Web.LoadProfiles

/-! ## §1. How far the parties have come. -/

/-- How far the function has come; it has come nowhere once it has ended. -/
def Pc.rank : Pc → Nat
  | .head => 1
  | .header => 2
  | .base => 3
  | .metaLength => 4
  | .metadata => 5
  | .state => 6
  | .overlay => 7
  | .last => 8
  | _ => 0

def Pc.running : Pc → Bool
  | .closing _ => false
  | .settled _ => false
  | _ => true

/-- The size of a record without its 62 bytes of overhead. -/
def recordSize (packed k : Nat) : Nat := min CHUNK (packed - k * CHUNK)

/-- The bytes of the chunks of a stream. -/
def bytesOf (items : List Item) : Bytes :=
  items.flatMap fun
    | .bytes b => b
    | .other => []

/-- The first twelve bytes are in order, and announce as many bytes as the header has. -/
structure HeadOk (head header : Bytes) : Prop where
  length : head.length = 12
  magic : head.take 8 = MAGIC
  size : header.length = number (slice head 8 4)
  bound : 1 ≤ header.length ∧ header.length ≤ 4096

/-- The reader is filling that array, behind `base`. -/
def Filling (r : Reader) (store : Store) (part : Part) (base : Bytes) : Prop :=
  (∃ pos stage, r.task = some (.into part pos, stage)) ∧ r.At store base

/-- The reader is looking for the end, behind `base`. -/
def Ending (r : Reader) (base : Bytes) : Prop := (∃ stage, r.task = some (.finish, stage)) ∧ r.out = base

/-- A stream was accepted. -/
def Opened (s : State) : Prop :=
  ∃ f, s.file = some f ∧ f.locked = false ∧ ∀ g, s.input = .file g → f = g

/-- Nothing has gone wrong with the records. -/
def State.Healthy (s : State) : Prop := s.compressed ≠ .errored ∧ s.compressed ≠ .cancelled

/-- What is left of the stream is what the reader has not taken. -/
structure Taking (s : State) : Prop where
  ok : s.source.Ok
  items : ∀ f, s.file = some f → f.stream.items = s.source.taken.map .bytes ++ s.source.stream.items ∧
    f.stream.tail = s.source.stream.tail

/-- Nothing is decompressed yet. -/
structure Early (s : State) : Prop where
  compressed : s.compressed = .absent
  pull : s.pull = .idle
  opened : s.opened = [] ∧ s.index = 0
  pending : s.pending = none ∧ s.position = 0
  fed : s.fed = [] ∧ s.given = []

/-- The header fits the disk and the size of the file. -/
structure BaseOk (setup : Setup) (s : State) : Prop where
  base : sameBase s.headerTree setup.vault.base = true
  bound : expected (s.store .header).length s.sizes.packed ≤ LIMIT + 65536
  declared : s.declared.differs (expected (s.store .header).length s.sizes.packed) = false

/-- The record and its plaintext. -/
structure RecordOk (setup : Setup) (header : Bytes) (packed k : Nat) (sealed plain : Bytes) : Prop where
  opened : setup.vault.openState (context header k) sealed = .ok plain
  sealed : sealed.length = recordSize packed k + 62
  plain : plain.length = recordSize packed k

/-- What `pull` is doing with the source. -/
def Pulling (s : State) : Prop :=
  match s.pull with
  | .reading =>
    s.pending = none ∧
      (Filling s.source s.store .sealed s.hashed ∧ s.index < records s.sizes.packed ∧
          (s.store .sealed).length = recordSize s.sizes.packed s.index + 62 ∨
        Ending s.source s.hashed ∧ s.index = records s.sizes.packed)
  | _ => s.source.task = none ∧ s.source.out = s.hashed

/-- **The records.**  Those that were read are hashed and opened, in order, and what they hold is handed
    on, but for what is pending. -/
structure Piped (setup : Setup) (s : State) : Prop where
  hashed : s.hashed = s.store .head ++ s.store .header ++ (s.opened.map Prod.fst).flatten
  index : s.index = s.opened.length
  bound : s.index ≤ records s.sizes.packed
  opened : ∀ (k : Nat) (c p : Bytes), s.opened[k]? = some (c, p) →
    RecordOk setup (s.store .header) s.sizes.packed k c p
  fed : (s.opened.map Prod.snd).flatten = s.fed.flatten ++ (s.pending.getD []).drop s.position
  position : s.position ≤ (s.pending.getD []).length
  source : Pulling s
  closed : s.compressed = .closed → s.pull = .idle ∧ s.index = records s.sizes.packed ∧ s.pending = none ∧
    s.source.taken.flatten = s.hashed ∧ s.source.stream.items = [] ∧ s.source.stream.tail = .done

/-- What the decompressor has given is taken or waits to be. -/
structure Flow (setup : Setup) (s : State) : Prop where
  given : (∀ e, s.raw.stream.tail ≠ .failed e) →
    s.raw.taken.flatten ++ bytesOf s.raw.stream.items = s.given.flatten
  ended : s.raw.stream.tail = .done → s.compressed = .closed ∧
    setup.inflater.ends s.fed.flatten s.given.flatten = true

/-- The section of the decompressed stream that the function is reading. -/
def Pc.part : Pc → Option Part
  | .metaLength => some .metaLength
  | .metadata => some .metadata
  | .state => some .state
  | .overlay => some .overlay
  | _ => none

/-- The sections in front of it. -/
def Store.ahead (store : Store) : Part → Bytes
  | .metadata => store .metaLength
  | .state => store .metaLength ++ store .metadata
  | .overlay => store .metaLength ++ store .metadata ++ store .state
  | _ => []

structure RawAt (s : State) : Prop where
  filling : ∀ part, s.pc.part = some part → Filling s.raw s.store part (s.store.ahead part)
  ending : s.pc = .last → Ending s.raw (s.store.ahead .overlay ++ s.store .overlay)
  four : s.pc = .metaLength → (s.store .metaLength).length = 4

/-- What the function itself is reading of the source. -/
def SourceAt (s : State) : Prop :=
  match s.pc with
  | .head => Filling s.source s.store .head [] ∧ (s.store .head).length = 12
  | .header => Filling s.source s.store .header (s.store .head)
  | .base => s.source.task = none ∧ s.source.out = s.hashed ∧ s.hashed = s.store .head ++ s.store .header
  | _ => True

/-- The metadata have the size that was announced, and announce the sizes of the sections. -/
structure Sectioned (s : State) : Prop where
  prefixed : (s.store .metaLength).length = 4 ∧ (s.store .metadata).length = number (s.store .metaLength)
  small : (s.store .metadata).length ≤ 65536
  parsed : 6 ≤ s.pc.rank → parseJson (s.store .metadata) = .ok s.metadata ∧
    sectionsOf s.metadata (s.store .metadata).length s.sizes.raw =
      .ok ((s.store .state).length, (s.store .overlay).length)

/-- The function is about to be called, or awaits `fetch`. -/
structure Fresh (s : State) : Prop where
  early : Early s
  listening : s.listening = false
  source : s.source = .absent
  raw : s.raw.Ok ∧ s.raw.task = none ∧ (s.raw.closed = true → s.aborted = true)

/-- **How far the three parties have come**, while the function is running. -/
structure Live (setup : Setup) (s : State) : Prop where
  fresh : s.pc.rank = 0 → Fresh s
  url : s.pc = .fetching → s.input = .url
  opened : 1 ≤ s.pc.rank → Opened s
  source : 1 ≤ s.pc.rank → s.Healthy → Taking s
  raw : s.raw.Ok
  early : s.pc.rank ≤ 3 → Early s
  made : 4 ≤ s.pc.rank → s.compressed ≠ .absent
  head : 2 ≤ s.pc.rank → HeadOk (s.store .head) (s.store .header)
  sizes : 3 ≤ s.pc.rank → (parseJson (s.store .header) >>= sizesOf) = .ok s.sizes
  base : 4 ≤ s.pc.rank → BaseOk setup s
  sourceAt : SourceAt s
  piped : 4 ≤ s.pc.rank → s.Healthy → Piped setup s
  rawAt : RawAt s
  flow : 4 ≤ s.pc.rank → Flow setup s
  sections : 5 ≤ s.pc.rank → Sectioned s
  sourceOpen : s.source.closed = true → s.Healthy → s.aborted = true
  rawOpen : s.raw.closed = true → s.aborted = true

/-- The parts of a file that was accepted. -/
structure Layout where
  header : Bytes
  sizes : Sizes
  /-- Each record, with its plaintext. -/
  opened : List (Bytes × Bytes)
  metadata : Bytes

/-- **An authentic file.** -/
structure Authentic (setup : Setup) (file : Bytes) (l : Layout) (d : Decoded) : Prop where
  bytes : file = MAGIC ++ u32 l.header.length ++ l.header ++ (l.opened.map Prod.fst).flatten
  length : file.length = expected l.header.length l.sizes.packed
  bound : file.length ≤ LIMIT + 65536
  short : 1 ≤ l.header.length ∧ l.header.length ≤ 4096
  header : (parseJson l.header >>= sizesOf) = .ok l.sizes
  base : ∀ h, parseJson l.header = .ok h → sameBase h setup.vault.base = true
  count : l.opened.length = records l.sizes.packed
  opened : ∀ (k : Nat) (c p : Bytes), l.opened[k]? = some (c, p) →
    RecordOk setup l.header l.sizes.packed k c p
  inflated : setup.inflater.ends (l.opened.map Prod.snd).flatten
    (u32 l.metadata.length ++ l.metadata ++ d.state ++ d.overlay) = true
  prefixed : l.metadata.length ≤ 65536
  raw : 4 + l.metadata.length + d.state.length + d.overlay.length = l.sizes.raw
  metadata : parseJson l.metadata = .ok d.metadata
  sections : sectionsOf d.metadata l.metadata.length l.sizes.raw = .ok (d.state.length, d.overlay.length)
  digest : d.stateSha256 = hex (setup.sha256 file)

/-- The stream of the file had these bytes and nothing behind them, and the file is authentic. -/
def Accepted (setup : Setup) (input : Input) (file : Option File) (d : Decoded) : Prop :=
  ∃ (f : File) (chunks : List Bytes) (l : Layout), file = some f ∧ (∀ g, input = .file g → f = g) ∧
    f.stream = { items := chunks.map .bytes, tail := .done } ∧
    f.size.differs chunks.flatten.length = false ∧ Authentic setup chunks.flatten l d

/-- Which methods are under way. -/
structure Owners (s : State) : Prop where
  source : ∀ part pos stage, s.source.task = some (.into part pos, stage) →
    part = .head ∧ s.pc.rank = 1 ∨ part = .header ∧ s.pc.rank = 2 ∨ part = .sealed
  raw : s.raw.task ≠ none → 4 ≤ s.pc.rank

structure Inv (setup : Setup) (s : State) : Prop where
  owners : Owners s
  live : s.pc.running = true → Live setup s
  result : ∀ d, s.pc = .closing (.ok d) ∨ s.pc = .settled (.ok d) → Accepted setup s.input s.file d

section Steps

variable {setup : Setup} {s s' : State} {throws : Nat → Bool}

/-! ## §2. Failing. -/

/-- A reader that is idle is not doing anything. -/
theorem idle_absurd {p : Prop} {r : Reader} {job : Job} {stage : Stage} (h : r.task = none)
    (ht : r.task = some (job, stage)) : p := by
  rw [h] at ht
  cases ht

theorem inv_fail {e : Fail} (h : ∀ part pos stage, s.source.task = some (.into part pos, stage) → part = .sealed) :
    Inv setup (s.fail e) := by
  refine ⟨⟨fun part pos stage ht => .inr (.inr (h part pos stage ht)), fun ht => absurd rfl ht⟩, nofun, ?_⟩
  intro d hd
  rcases hd with hd | hd <;> cases hd

/-- Failing, of a state in which the source is idle. -/
theorem inv_fail_idle {e : Fail} (h : s.source.task = none) : Inv setup (s.fail e) :=
  inv_fail fun _ _ _ ht => idle_absurd h ht

/-- From the fourth `await` on, only `pull` reads the source. -/
theorem Owners.sealed (h : Owners s) (hrank : s.pc.rank ≠ 1 ∧ s.pc.rank ≠ 2) (part : Part) (pos : Nat)
    (stage : Stage) (ht : s.source.task = some (.into part pos, stage)) : part = .sealed := by
  rcases h.source part pos stage ht with ⟨-, h⟩ | ⟨-, h⟩ | h
  · exact absurd h hrank.1
  · exact absurd h hrank.2
  · exact h

theorem inv_reject {e : Fail} {source : Reader} {file : Option File} (hsource : source.task = none)
    (hraw : s.raw.task = none) : Inv setup { s.reject e with source, file } := by
  refine ⟨⟨fun _ _ _ ht => idle_absurd hsource ht, fun h => absurd hraw h⟩, nofun, ?_⟩
  intro d hd
  rcases hd with hd | hd <;> cases hd

theorem running_of_rank {pc : Pc} (h : 1 ≤ pc.rank) : pc.running = true := by
  cases pc <;> first | rfl | cases h

theorem sourceAt_of_rank (h : 4 ≤ s.pc.rank) : SourceAt s := by
  unfold SourceAt
  cases hpc : s.pc with
  | head =>
    rw [hpc] at h
    exact absurd h (by decide)
  | header =>
    rw [hpc] at h
    exact absurd h (by decide)
  | base =>
    rw [hpc] at h
    exact absurd h (by decide)
  | _ => exact trivial

theorem rawAt_of_rank (h : s.pc.rank ≤ 3) : RawAt s := by
  have hpart : s.pc.part = none := by
    revert h
    cases s.pc <;> intro h <;> first | rfl | exact absurd h (by decide)
  refine ⟨fun part hp => ?_, fun hp => ?_, fun hp => ?_⟩
  · rw [hpart] at hp
    cases hp
  · rw [hp] at h
    exact absurd h (by decide)
  · rw [hp] at h
    exact absurd h (by decide)

/-! ## §3. The header. -/

theorem filling_new {r : Reader} {store : Store} {part : Part} {base : Bytes} (h : r.out = base) :
    Filling (r.into part) store part base := by
  refine ⟨⟨0, .loop, rfl⟩, Nat.zero_le _, nofun, ?_⟩
  rw [List.take_zero, List.append_nil]
  exact h

theorem length_allocate (store : Store) (part : Part) (size : Nat) :
    (store.allocate part size part).length = size := by
  rw [Store.allocate, Store.put, Function.update_self, List.length_replicate]

theorem allocate_ne {store : Store} {part other : Part} (h : other ≠ part) (size : Nat) :
    store.allocate part size other = store other := Function.update_of_ne h _ _

/-- Starting a method does not change what was taken. -/
theorem Reader.Ok.into {r : Reader} (h : r.Ok) (part : Part) : (r.into part).Ok := by
  refine ⟨h.offset, h.received, h.taken, fun job ht => ?_⟩
  cases (Prod.mk.inj (Option.some.inj ht)).2

theorem inv_of_live (hrun : s.pc.running = true) (howners : Owners s) (hlive : Live setup s) : Inv setup s := by
  refine ⟨howners, fun _ => hlive, fun d hd => ?_⟩
  rcases hd with hd | hd
  · rw [hd] at hrun
    cases hrun
  · rw [hd] at hrun
    cases hrun

/-- As long as nothing is decompressed, only the source and the header matter. -/
theorem live_of_early (hrank : 1 ≤ s.pc.rank ∧ s.pc.rank ≤ 3) (hearly : Early s) (hopened : Opened s) (hsource : Taking s)
    (hraw : s.raw.Ok)
    (hhead : 2 ≤ s.pc.rank → HeadOk (s.store .head) (s.store .header))
    (hsizes : 3 ≤ s.pc.rank → (parseJson (s.store .header) >>= sizesOf) = .ok s.sizes) (hat : SourceAt s)
    (hsourceOpen : s.source.closed = true → s.aborted = true)
    (hrawOpen : s.raw.closed = true → s.aborted = true) : Live setup s where
  fresh := fun h => absurd h (by omega)
  url := fun h => by
    rw [h] at hrank
    exact absurd hrank.1 (by decide)
  opened := fun _ => hopened
  source := fun _ _ => hsource
  raw := hraw
  early := fun _ => hearly
  made := fun h => absurd h (by omega)
  head := hhead
  sizes := hsizes
  base := fun h => absurd h (by omega)
  sourceAt := hat
  piped := fun h => absurd h (by omega)
  rawAt := rawAt_of_rank hrank.2
  flow := fun h => absurd h (by omega)
  sections := fun h => absurd h (by omega)
  sourceOpen := fun h _ => hsourceOpen h
  rawOpen := hrawOpen

theorem inv_accept {f : File} (h : Fresh s) (hinput : ∀ g, s.input = .file g → f = g) :
    Inv setup (s.accept f throws) := by
  have htask : s.source.task = none := by rw [h.source]; rfl
  unfold State.accept
  split
  · apply inv_reject
    · split
      · exact htask
      · exact htask
    · exact h.raw.2.1
  · split
    · exact inv_reject htask h.raw.2.1
    next hlocked =>
      dsimp only
      split
      · exact inv_fail_idle rfl
      · apply inv_of_live rfl
        · refine ⟨fun part pos stage ht => ?_, fun ht => absurd h.raw.2.1 ht⟩
          cases ht
          exact .inl ⟨rfl, rfl⟩
        · refine live_of_early (show 1 ≤ 1 ∧ 1 ≤ 3 by decide)
            ⟨h.early.compressed, h.early.pull, h.early.opened, h.early.pending, h.early.fed⟩
            ⟨f, rfl, Bool.eq_false_of_not_eq_true hlocked, hinput⟩
            ⟨(Reader.ok_new _ _).into _, fun g hg => ?_⟩ h.raw.1
            (fun h => absurd h (show ¬2 ≤ 1 by decide)) (fun h => absurd h (show ¬3 ≤ 1 by decide))
            ⟨filling_new rfl, length_allocate s.store .head 12⟩ (fun h => by cases h) h.raw.2.2
          obtain rfl := Option.some.inj hg
          exact ⟨rfl, rfl⟩

theorem Live.enter (h : Live setup s) (hpc : s.pc = .entry) : Inv setup (s.enter throws) := by
  have hfresh := h.fresh (by rw [hpc]; rfl)
  have htask : s.source.task = none := by rw [hfresh.source]; rfl
  unfold State.enter
  split
  · exact inv_reject htask hfresh.raw.2.1
  · split
    next hurl =>
      apply inv_of_live rfl
      · exact ⟨fun _ _ _ ht => idle_absurd htask ht, fun ht => absurd hfresh.raw.2.1 ht⟩
      · exact
          { fresh := fun _ => ⟨⟨hfresh.early.compressed, hfresh.early.pull, hfresh.early.opened,
              hfresh.early.pending, hfresh.early.fed⟩, hfresh.listening, hfresh.source, hfresh.raw⟩
            url := fun _ => hurl
            opened := fun h => absurd h (show ¬1 ≤ 0 by decide)
            source := fun h => absurd h (show ¬1 ≤ 0 by decide)
            raw := hfresh.raw.1
            early := fun _ => ⟨hfresh.early.compressed, hfresh.early.pull, hfresh.early.opened,
              hfresh.early.pending, hfresh.early.fed⟩
            made := fun h => absurd h (show ¬4 ≤ 0 by decide)
            head := fun h => absurd h (show ¬2 ≤ 0 by decide)
            sizes := fun h => absurd h (show ¬3 ≤ 0 by decide)
            base := fun h => absurd h (show ¬4 ≤ 0 by decide)
            sourceAt := trivial
            piped := fun h => absurd h (show ¬4 ≤ 0 by decide)
            rawAt := rawAt_of_rank (show 0 ≤ 3 by decide)
            flow := fun h => absurd h (show ¬4 ≤ 0 by decide)
            sections := fun h => absurd h (show ¬5 ≤ 0 by decide)
            sourceOpen := h.sourceOpen
            rawOpen := h.rawOpen }
    next f hf =>
      apply inv_accept hfresh
      intro g hg
      rw [hf] at hg
      exact Input.file.inj hg
    · exact inv_reject htask hfresh.raw.2.1

theorem Live.respond {response : Except Fail Response} (h : Live setup s) (hpc : s.pc = .fetching) :
    Inv setup (s.respond response throws) := by
  have hfresh := h.fresh (by rw [hpc]; rfl)
  have htask : s.source.task = none := by rw [hfresh.source]; rfl
  unfold State.respond
  split
  · exact inv_reject htask hfresh.raw.2.1
  · split
    · apply inv_accept hfresh
      intro g hg
      rw [h.url hpc] at hg
      cases hg
    · exact inv_reject htask hfresh.raw.2.1

/-- The state after the reader of the source has moved on. -/
theorem Taking.onward {source : Reader} (h : Taking s) (hok : source.Ok) (hon : s.source.Onward source) :
    Taking { s with source } := by
  refine ⟨hok, fun f hf => ?_⟩
  obtain ⟨hitems, htail⟩ := h.items f hf
  obtain ⟨got, htaken, hgot⟩ := hon.items
  refine ⟨?_, htail.trans hon.tail.symm⟩
  show f.stream.items = source.taken.map .bytes ++ source.stream.items
  rw [hitems, hgot, htaken, List.map_append, List.append_assoc]

/-- What a reader has taken depends on it and on the file. -/
theorem Taking.congr (h : Taking s) (hsource : s'.source = s.source) (hfile : s'.file = s.file) : Taking s' := by
  refine ⟨hsource.symm ▸ h.ok, fun f hf => ?_⟩
  rw [hsource]
  exact h.items f (hfile ▸ hf)

theorem Early.healthy (h : Early s) : s.Healthy := by
  unfold State.Healthy
  rw [h.compressed]
  decide

theorem Live.onHead {source : Reader} (h : Live setup s) (hpc : s.pc = .head) (hok : source.Ok)
    (hon : s.source.Onward source) (htask : source.task = none) (hout : source.out = s.store .head)
    (howners : Owners s) : Inv setup (({ s with source } : State).onHead throws) := by
  have hrank : s.pc.rank = 1 := by rw [hpc]; rfl
  have hearly := h.early (by omega)
  have hlength : (s.store .head).length = 12 := by
    have hat := h.sourceAt
    unfold SourceAt at hat
    rw [hpc] at hat
    exact hat.2
  unfold State.onHead
  dsimp only
  split
  · exact inv_fail_idle htask
  · split
    · exact inv_fail_idle htask
    next hmagic =>
      split
      · exact inv_fail_idle htask
      next hbound =>
        split
        · exact inv_fail_idle htask
        · have hsame : s.store.allocate .header (number (slice (s.store .head) 8 4)) .head = s.store .head :=
            allocate_ne (by decide) _
          have hsize := length_allocate s.store .header (number (slice (s.store .head) 8 4))
          apply inv_of_live rfl
          · refine ⟨fun part pos stage ht => ?_, fun ht => ?_⟩
            · cases ht
              exact .inr (.inl ⟨rfl, rfl⟩)
            · have hraw := howners.raw ht
              omega
          · refine live_of_early (show 1 ≤ 2 ∧ 2 ≤ 3 by decide)
              ⟨hearly.compressed, hearly.pull, hearly.opened, hearly.pending, hearly.fed⟩
              (h.opened (by omega)) ⟨hok.into _, ((h.source (by omega) hearly.healthy).onward hok hon).items⟩
              h.raw (fun _ => ⟨?_, ?_, ?_, ?_⟩) (fun h => absurd h (show ¬3 ≤ 2 by decide)) ?_ ?_ h.rawOpen
            · exact hsame.symm ▸ hlength
            · exact hsame.symm ▸ not_not.mp hmagic
            · exact hsame.symm ▸ hsize
            · show 1 ≤ (s.store.allocate .header (number (slice (s.store .head) 8 4)) .header).length ∧
                (s.store.allocate .header (number (slice (s.store .head) 8 4)) .header).length ≤ 4096
              rw [hsize]
              omega
            · exact filling_new (hout.trans hsame.symm)
            · intro hclosed
              exact h.sourceOpen (hon.closed.symm.trans hclosed) hearly.healthy

theorem Live.onHeader {source : Reader} (h : Live setup s) (hpc : s.pc = .header) (hok : source.Ok)
    (hon : s.source.Onward source) (htask : source.task = none)
    (hout : source.out = s.store .head ++ s.store .header) (howners : Owners s) :
    Inv setup ({ s with source } : State).onHeader := by
  have hrank : s.pc.rank = 2 := by rw [hpc]; rfl
  have hearly := h.early (by omega)
  unfold State.onHeader
  dsimp only
  split
  · exact inv_fail_idle htask
  next sizes hsizes =>
    apply inv_of_live rfl
    · refine ⟨fun _ _ _ ht => idle_absurd htask ht, fun ht => ?_⟩
      have hraw := howners.raw ht
      omega
    · refine live_of_early (show 1 ≤ 3 ∧ 3 ≤ 3 by decide)
        ⟨hearly.compressed, hearly.pull, hearly.opened, hearly.pending, hearly.fed⟩
        (h.opened (by omega)) ((h.source (by omega) hearly.healthy).onward hok hon |>.congr rfl rfl)
        h.raw (fun _ => h.head (by omega)) (fun _ => hsizes) ⟨htask, hout, rfl⟩ ?_ h.rawOpen
      intro hclosed
      exact h.sourceOpen (hon.closed.symm.trans hclosed) hearly.healthy

end Steps

end My98.Web.StateFormat
