/-
  My98.Web.StateReading — a genuine file is read back.

  As long as no check throws and nobody aborts, a run on a genuine file does not end with an error,
  however the stream is cut and whoever comes first: each party finds the bytes that it expects, because
  what was taken from a stream is the front of it.

    • `Reader.Within`   — a reader of a stream that has the right bytes;
    • `Calm`, `Fine`    — nothing has gone wrong;
    • `fine_step`       — and nothing does;
    • `genuine_decoded` — **every run**;
    • `genuine_goesOn`  — and every run goes on, or waits for the decompressor.
-/
import Mathlib
import My98.Web.StateFile

namespace My98.Web.StateFormat

open My98.Lib My98.Lib.JsonText My98.Torrent.DescriptorText My98.Torrent.Formats My98.Web.LoadProfiles

/-! ## §1. Readers of the right bytes. -/

/-- The stream has nothing but the front of `whole`, and all of it where it ends. -/
structure Reader.Within (r : Reader) (whole : Bytes) : Prop where
  ok : r.Ok
  opened : r.closed = false
  room : whole.length ≤ r.max
  unbroken : ∀ e, r.stream.tail ≠ .failed e
  bytes : ∃ rest : List Bytes, r.stream.items = rest.map .bytes ∧ r.taken.flatten ++ rest.flatten <+: whole ∧
    (r.stream.tail = .done → r.taken.flatten ++ rest.flatten = whole)

/-- A chunk is told by its bytes. -/
theorem bytes_injective : Function.Injective Item.bytes := fun _ _ h => Item.bytes.inj h

section Within

variable {r : Reader} {store : Store} {whole base : Bytes} {part : Part} {pos : Nat} {stage : Stage}

/-- What was taken is a front of the whole. -/
theorem Reader.Within.taken_front (h : r.Within whole) : r.taken.flatten <+: whole := by
  obtain ⟨rest, -, hpre, -⟩ := h.bytes
  exact (List.prefix_append _ _).trans hpre

/-- So is what was handed on. -/
theorem Reader.Within.out_front (h : r.Within whole) : r.out <+: whole := by
  have htaken := h.taken_front
  rw [h.ok.taken] at htaken
  exact (List.prefix_append _ _).trans htaken

/-- **An array that the bytes fill is filled.** -/
theorem Reader.Within.no_fault (h : r.Within whole) (hat : r.At store base)
    (ht : r.task = some (.into part pos, stage)) (hroom : base.length + (store part).length ≤ whole.length) :
    ¬r.Fault store (.into part pos) := by
  obtain ⟨rest, hitems, hpre, hdone⟩ := h.bytes
  unfold Reader.At at hat
  rw [ht] at hat
  rintro (hnext | ⟨hnext, hjob, hpos, hall⟩ | hnext | ⟨hnext, hmax⟩ | hjob | ⟨-, -, hjob⟩)
  · rcases Reader.next_cases hnext with ⟨he, -⟩ | ⟨-, -, e, -, -, htail⟩ | ⟨-, item, he, -⟩
    · cases he
    · exact h.unbroken e htail
    · cases he
  · cases hjob
    rcases Reader.next_cases hnext with ⟨-, -, hclosed | ⟨hempty, htail⟩⟩ | ⟨-, -, e, he, -⟩ | ⟨-, item, he, -⟩
    · rw [h.opened] at hclosed
      cases hclosed
    · have hwhole := hdone htail
      rw [List.map_eq_nil_iff.mp (hitems.symm.trans hempty), List.flatten_nil, List.append_nil, hall, hat.2.2] at hwhole
      have hlength := congrArg List.length hwhole
      rw [List.length_append, List.length_take] at hlength
      omega
    · cases he
    · cases he
  · rcases Reader.next_cases hnext with ⟨he, -⟩ | ⟨-, -, e, he, -⟩ | ⟨-, item, he, hmore, -⟩
    · cases he
    · cases he
    · cases he
      rw [hitems] at hmore
      cases rest with
      | nil => cases hmore
      | cons b rest => cases (List.cons.inj hmore).1
  · rcases Reader.next_cases hnext with ⟨he, -⟩ | ⟨-, -, e, he, -⟩ | ⟨-, item, he, hmore, -⟩
    · cases he
    · cases he
    · cases he
      rw [hitems] at hmore
      cases rest with
      | nil => cases hmore
      | cons b' rest =>
        cases (List.cons.inj hmore).1
        have hlength := hpre.length_le
        have hreceived := h.ok.received
        have hbound := h.room
        rw [List.flatten_cons, List.length_append, List.length_append] at hlength
        omega
  · cases hjob
  · cases hjob

/-- **Where all the bytes were read there is nothing more.** -/
theorem Reader.Within.no_rest (h : r.Within whole) (hout : whole.length ≤ r.out.length) :
    ¬r.Fault store .finish := by
  obtain ⟨rest, hitems, hpre, hdone⟩ := h.bytes
  have htaken := congrArg List.length h.ok.taken
  have hlength := hpre.length_le
  have hoff := h.ok.offset
  rw [List.length_append] at hlength
  rw [List.length_append, List.length_drop] at htaken
  rintro (hnext | ⟨-, hjob, -⟩ | hnext | ⟨hnext, hmax⟩ | ⟨-, hmore⟩ | @⟨b, stream, hnext, hb, -⟩)
  · rcases Reader.next_cases hnext with ⟨he, -⟩ | ⟨-, -, e, -, -, htail⟩ | ⟨-, item, he, -⟩
    · cases he
    · exact h.unbroken e htail
    · cases he
  · cases hjob
  · rcases Reader.next_cases hnext with ⟨he, -⟩ | ⟨-, -, e, he, -⟩ | ⟨-, item, he, hmore, -⟩
    · cases he
    · cases he
    · cases he
      rw [hitems] at hmore
      cases rest with
      | nil => cases hmore
      | cons b rest => cases (List.cons.inj hmore).1
  · rcases Reader.next_cases hnext with ⟨he, -⟩ | ⟨-, -, e, he, -⟩ | ⟨-, item, he, hmore, -⟩
    · cases he
    · cases he
    · cases he
      rw [hitems] at hmore
      cases rest with
      | nil => cases hmore
      | cons b' rest =>
        cases (List.cons.inj hmore).1
        have hreceived := h.ok.received
        have hbound := h.room
        rw [List.flatten_cons, List.length_append] at hlength
        omega
  · omega
  · rcases Reader.next_cases hnext with ⟨he, -⟩ | ⟨-, -, e, he, -⟩ | ⟨-, item, he, hmore, -⟩
    · cases he
    · cases he
    · cases he
      rw [hitems] at hmore
      cases rest with
      | nil => cases hmore
      | cons b' rest =>
        obtain rfl := Item.bytes.inj (List.cons.inj hmore).1
        have hpos : 0 < b'.length := List.length_pos_iff.mpr hb
        rw [List.flatten_cons, List.length_append] at hlength
        omega

/-- A reader that goes on stays within the whole. -/
theorem Reader.Within.onward {r' : Reader} (h : r.Within whole) (hon : r.Onward r') (hok : r'.Ok) :
    r'.Within whole := by
  obtain ⟨rest, hitems, hpre, hdone⟩ := h.bytes
  obtain ⟨got, htaken, hgot⟩ := hon.items
  obtain ⟨first, rest, rfl, hfirst, hrest⟩ := List.map_eq_append_iff.mp (hitems.symm.trans hgot)
  obtain rfl := bytes_injective.list_map hfirst
  rw [List.flatten_append, ← List.append_assoc, ← List.flatten_append, ← htaken] at hpre hdone
  refine ⟨hok, hon.closed.trans h.opened, Nat.le_trans h.room (Nat.le_of_eq hon.max.symm), fun e he => ?_, rest,
    hrest.symm, hpre, fun htail => hdone (hon.tail.symm.trans htail)⟩
  exact h.unbroken e (hon.tail.symm.trans he)

end Within

/-! ## §2. Nothing has gone wrong. -/

/-- A stream with these bytes, in any chunks. -/
def Holds (stream : Stream) (file : Bytes) : Prop :=
  ∃ chunks : List Bytes, stream = { items := chunks.map .bytes, tail := .done } ∧ chunks.flatten = file

/-- The size of a file, if it is given, is right. -/
def Fits (f : File) (file : Bytes) : Prop := f.size = .absent ∨ f.size = .integer file.length

/-- The argument is an address, or a file with these bytes. -/
def Delivers (input : Input) (file : Bytes) : Prop :=
  match input with
  | .url => True
  | .file f => Holds f.stream file ∧ f.locked = false ∧ Fits f file
  | .other => False

/-- No check throws, nobody aborts, `state_base` answers, and the download has the bytes of the file. -/
def Event.Smooth (file : Bytes) : Event → Prop
  | .enter throws => ∀ n, throws n = false
  | .respond response throws => (∃ r body, response = .ok r ∧ r.ok = true ∧ r.body = some body ∧ Holds body file) ∧
      ∀ n, throws n = false
  | .turn _ throws => ∀ n, throws n = false
  | .answer _ throws => ∀ n, throws n = false
  | .rest _ throws => ∀ n, throws n = false
  | .base failed throws => failed = none ∧ ∀ n, throws n = false
  | .pull throws => ∀ n, throws n = false
  | .pulled throws => ∀ n, throws n = false
  | .abort => False
  | _ => True

/-- **Nothing has gone wrong**, while the function runs. -/
structure Calm (p : Parts) (s : State) : Prop where
  aborted : s.aborted = false
  healthy : s.Healthy
  sourceOpen : s.source.closed = false
  rawOpen : s.raw.closed = false
  input : s.pc.rank = 0 → Delivers s.input p.file
  file : ∀ f, s.file = some f → Holds f.stream p.file ∧ Fits f p.file
  room : 1 ≤ s.pc.rank → p.file.length ≤ s.source.max
  items : ∃ waiting : List Bytes, s.raw.stream.items = waiting.map .bytes
  unbroken : ∀ e, s.raw.stream.tail ≠ .failed e
  limit : 4 ≤ s.pc.rank → s.raw.max = p.raw.length
  given : s.given.flatten <+: p.raw
  resting : s.pull = .resting → s.pending ≠ none

/-- The function is running, or has returned. -/
structure Fine (p : Parts) (s : State) : Prop where
  calm : s.pc.running = true → Calm p s
  unfailed : ∀ e, s.pc ≠ .closing (.error e) ∧ s.pc ≠ .settled (.error e)
  held : ∀ f, s.file = some f → Holds f.stream p.file

section Steps

variable {setup : Setup} {p : Parts} {s s' : State} {throws : Nat → Bool}

/-- A function that runs calmly is fine. -/
theorem fine_of_calm (hrun : s.pc.running = true) (h : Calm p s) : Fine p s := by
  refine ⟨fun _ => h, fun e => ⟨fun hpc => ?_, fun hpc => ?_⟩, fun f hf => (h.file f hf).1⟩
  · rw [hpc] at hrun
    cases hrun
  · rw [hpc] at hrun
    cases hrun

/-- A step that touches neither the result nor the file keeps it fine. -/
theorem Fine.aside (h : Fine p s) (ha : Aside s s') (hcalm : s.pc.running = true → Calm p s') : Fine p s' := by
  refine ⟨fun hrun => hcalm (ha.pc ▸ hrun), fun e => ?_, fun f hf => h.held f (ha.file ▸ hf)⟩
  rw [ha.pc]
  exact h.unfailed e

/-- Nothing is refused. -/
theorem Calm.not_refused (h : Calm p s) {b : Bool} (hb : b = false) : ¬s.refused b = true := by
  rw [State.refused, h.aborted, hb]
  decide

/-! ## §3. Where the readers stand. -/

/-- The source reads the file. -/
theorem Live.sourceWithin (h : Live setup s) (hc : Calm p s) (hrank : 1 ≤ s.pc.rank) : s.source.Within p.file := by
  have htaking := h.source hrank hc.healthy
  obtain ⟨f, hf, -, -⟩ := h.opened hrank
  obtain ⟨hitems, htail⟩ := htaking.items f hf
  obtain ⟨⟨chunks, hstream, hfile⟩, -⟩ := hc.file f hf
  rw [hstream] at hitems htail
  obtain ⟨first, rest, rfl, hfirst, hrest⟩ := List.map_eq_append_iff.mp hitems
  obtain rfl := bytes_injective.list_map hfirst
  refine ⟨htaking.ok, hc.sourceOpen, hc.room hrank, fun e he => ?_, rest, hrest.symm, ?_, fun _ => ?_⟩
  · rw [← htail] at he
    cases he
  · rw [← hfile, List.flatten_append]
  · rw [← hfile, List.flatten_append]

/-- What was hashed is the front of the file. -/
theorem Live.hashed_front (h : Live setup s) (hc : Calm p s) (hrank : 3 ≤ s.pc.rank) : s.hashed <+: p.file := by
  have hwithin := h.sourceWithin hc (by omega)
  have hout := hwithin.out_front
  rcases Nat.lt_or_ge 3 s.pc.rank with hlate | hbase
  · have hp := (h.piped (by omega) hc.healthy).source
    unfold Pulling at hp
    split at hp
    · obtain ⟨-, ⟨⟨⟨pos, stage, ht⟩, hat⟩, -⟩ | ⟨⟨-, hend⟩, -⟩⟩ := hp
      · unfold Reader.At at hat
        rw [ht] at hat
        rw [hat.2.2] at hout
        exact (List.prefix_append _ _).trans hout
      · rwa [hend] at hout
    · rwa [hp.2] at hout
  · have hat := h.sourceAt
    have hpc : s.pc = .base := by
      revert hrank hbase
      cases s.pc <;> simp [Pc.rank]
    unfold SourceAt at hat
    rw [hpc] at hat
    rwa [hat.2.1] at hout

/-- **The header is the one that was written.** -/
theorem Live.same (hg : Genuine setup p) (h : Live setup s) (hc : Calm p s) (hrank : 3 ≤ s.pc.rank) :
    s.store .head = MAGIC ++ u32 p.header.length ∧ s.store .header = p.header ∧ s.sizes = p.sizes ∧
      (4 ≤ s.pc.rank → (s.opened.map Prod.fst).flatten <+: p.sealed.flatten) := by
  obtain ⟨rest, hrest⟩ := h.hashed_front hc hrank
  have hhead := h.head (by omega)
  have hparsed := h.sizes hrank
  rcases Nat.lt_or_ge 3 s.pc.rank with hlate | hbase
  · have hhashed := (h.piped (by omega) hc.healthy).hashed
    rw [hhashed, List.append_assoc (_ ++ _)] at hrest
    obtain ⟨hfirst, hheader, hsealed⟩ := hg.same_header hhead hrest
    rw [hheader, hg.header] at hparsed
    exact ⟨hfirst, hheader, (Except.ok.inj hparsed).symm, fun _ => ⟨rest, hsealed⟩⟩
  · have hat := h.sourceAt
    have hpc : s.pc = .base := by
      revert hrank hbase
      cases s.pc <;> simp [Pc.rank]
    unfold SourceAt at hat
    rw [hpc] at hat
    rw [hat.2.2] at hrest
    obtain ⟨hfirst, hheader, -⟩ := hg.same_header hhead hrest
    rw [hheader, hg.header] at hparsed
    exact ⟨hfirst, hheader, (Except.ok.inj hparsed).symm, fun hr => absurd hr (by omega)⟩

/-- What the decompressor was handed is the front of what was compressed. -/
theorem Live.fed_front (hg : Genuine setup p) (h : Live setup s) (hc : Calm p s) (hrank : 4 ≤ s.pc.rank) :
    s.fed.flatten <+: p.compressed ∧ (s.compressed = .closed → s.fed.flatten = p.compressed) := by
  have hpiped := h.piped hrank hc.healthy
  obtain ⟨-, hheader, hsizes, hsealed⟩ := h.same hg hc (by omega)
  have hbound := hpiped.bound
  have hopened := hpiped.opened
  rw [hheader, hsizes] at hopened
  rw [hpiped.index, hsizes] at hbound
  have hplains := hg.same_records hbound hopened (hsealed hrank)
  refine ⟨?_, fun hclosed => ?_⟩
  · have htake := List.take_prefix (s.opened.length * CHUNK) p.compressed
    rw [← hplains, hpiped.fed] at htake
    exact (List.prefix_append _ _).trans htake
  · obtain ⟨-, hindex, hpending, -⟩ := hpiped.closed hclosed
    rw [hpiped.index, hsizes] at hindex
    rw [← hg.all_records hindex hopened (hsealed hrank), hpiped.fed, hpending, Option.getD_none, List.drop_nil,
      List.append_nil]

/-- The other reader reads the sections. -/
theorem Live.rawWithin (hg : Genuine setup p) (h : Live setup s) (hc : Calm p s) (hrank : 4 ≤ s.pc.rank) :
    s.raw.Within p.raw := by
  have hflow := h.flow hrank
  obtain ⟨waiting, hwaiting⟩ := hc.items
  have hgiven := hflow.given hc.unbroken
  rw [hwaiting, bytesOf_bytes] at hgiven
  refine ⟨h.raw, hc.rawOpen, Nat.le_of_eq (hc.limit hrank).symm, hc.unbroken, waiting, hwaiting, ?_, fun htail => ?_⟩
  · rw [hgiven]
    exact hc.given
  · obtain ⟨hclosed, hends⟩ := hflow.ended htail
    rw [(h.fed_front hg hc hrank).2 hclosed] at hends
    rw [hgiven]
    exact hg.inverts.ends _ hends

/-! ## §4. Nothing goes wrong: the function. -/

/-- The second reader may go on, and the function to a later point. -/
theorem Calm.reread (pc : Pc) {raw : Reader} {store : Store} {metadata : Tree} (h : Calm p s)
    (hrank : 4 ≤ s.pc.rank) (hpc : 4 ≤ pc.rank) (hon : s.raw.Onward raw) :
    Calm p { s with pc, raw, store, metadata } := by
  obtain ⟨waiting, hwaiting⟩ := h.items
  obtain ⟨got, -, hgot⟩ := hon.items
  obtain ⟨first, rest, -, -, hrest⟩ := List.map_eq_append_iff.mp (hwaiting.symm.trans hgot)
  exact
    { aborted := h.aborted
      healthy := h.healthy
      sourceOpen := h.sourceOpen
      rawOpen := hon.closed.trans h.rawOpen
      input := fun hr => absurd hr (show pc.rank ≠ 0 by omega)
      file := h.file
      room := fun _ => h.room (by omega)
      items := ⟨rest, hrest.symm⟩
      unbroken := fun e he => h.unbroken e (hon.tail.symm.trans he)
      limit := fun _ => hon.max.trans (h.limit hrank)
      given := h.given
      resting := h.resting }

/-- So may the source and its `pull`. -/
theorem Calm.repull {source : Reader} {store : Store} {hashed : Bytes} {compressed : Compressed}
    {pull : Pull} {index position : Nat} {pending : Option Bytes} {opened : List (Bytes × Bytes)}
    {fed : List Bytes} (h : Calm p s) (hclosed : source.closed = s.source.closed)
    (hmax : source.max = s.source.max) (hhealthy : compressed ≠ .errored ∧ compressed ≠ .cancelled)
    (hresting : pull = .resting → pending ≠ none) :
    Calm p { s with source, store, hashed, compressed, pull, index, position, pending, opened, fed } where
  aborted := h.aborted
  healthy := hhealthy
  sourceOpen := hclosed.trans h.sourceOpen
  rawOpen := h.rawOpen
  input := h.input
  file := h.file
  room := fun hr => Nat.le_trans (h.room hr) (Nat.le_of_eq hmax.symm)
  items := h.items
  unbroken := h.unbroken
  limit := h.limit
  given := h.given
  resting := hresting

/-- Before anything is decompressed. -/
theorem Calm.onto {pc : Pc} {source : Reader} {store : Store} {hashed : Bytes} {sizes : Sizes} (h : Calm p s)
    (hrank : 1 ≤ s.pc.rank) (hpc : 1 ≤ pc.rank ∧ pc.rank ≤ 3) (hclosed : source.closed = s.source.closed)
    (hmax : source.max = s.source.max) : Calm p { s with pc, source, store, hashed, sizes } where
  aborted := h.aborted
  healthy := h.healthy
  sourceOpen := hclosed.trans h.sourceOpen
  rawOpen := h.rawOpen
  input := fun hr => absurd hr (show pc.rank ≠ 0 by omega)
  file := h.file
  room := fun _ => Nat.le_trans (h.room hrank) (Nat.le_of_eq hmax.symm)
  items := h.items
  unbroken := h.unbroken
  limit := fun hr => absurd hr (show ¬4 ≤ pc.rank by omega)
  given := h.given
  resting := h.resting

/-- The size of a genuine file is allowed. -/
theorem Genuine.fits (hg : Genuine setup p) {f : File} (h : Fits f p.file) : f.size.ok = true := by
  have hlength := hg.length
  have hbound := hg.bound
  rcases h with h | h
  · rw [h]
    rfl
  · rw [h, Declared.ok, hlength]
    apply decide_eq_true
    unfold expected at *
    omega

/-- A file of the right bytes is accepted. -/
theorem Calm.accept {f : File} (hg : Genuine setup p) (hc : Calm p s) (hstream : Holds f.stream p.file)
    (hlocked : f.locked = false) (hfits : Fits f p.file) (hthrows : ∀ n, throws n = false) : Fine p (s.accept f throws) := by
  have hroom : p.file.length ≤ LIMIT + 65536 := hg.length ▸ hg.bound
  unfold State.accept
  split
  next hsize =>
    rw [hg.fits hfits] at hsize
    cases hsize
  · split
    next h =>
      rw [hlocked] at h
      cases h
    · dsimp only
      split
      next hrefused =>
        rcases hrefused with hrefused | hrefused
        · exact absurd hrefused (hc.not_refused (hthrows 1))
        · exact absurd hrefused (hc.not_refused (hthrows 2))
      · refine fine_of_calm rfl ?_
        exact
          { aborted := hc.aborted
            healthy := hc.healthy
            sourceOpen := rfl
            rawOpen := hc.rawOpen
            input := nofun
            file := fun g hg => by
              obtain rfl := Option.some.inj hg
              exact ⟨hstream, hfits⟩
            room := fun _ => hroom
            items := hc.items
            unbroken := hc.unbroken
            limit := fun h => absurd h (show ¬4 ≤ 1 by decide)
            given := hc.given
            resting := hc.resting }

/-- The first turn of the function fails nowhere. -/
theorem Calm.enter (hg : Genuine setup p) (hc : Calm p s) (hpc : s.pc = .entry)
    (hthrows : ∀ n, throws n = false) : Fine p (s.enter throws) := by
  have hrank : s.pc.rank = 0 := by rw [hpc]; rfl
  have hdelivers := hc.input hrank
  unfold State.enter
  split
  next hrefused => exact absurd hrefused (hc.not_refused (hthrows 0))
  · unfold Delivers at hdelivers
    split
    next hurl =>
      refine fine_of_calm rfl ⟨hc.aborted, hc.healthy, hc.sourceOpen, hc.rawOpen, fun _ => ?_, hc.file,
        fun h => absurd h (show ¬1 ≤ 0 by decide), hc.items, hc.unbroken,
        fun h => absurd h (show ¬4 ≤ 0 by decide), hc.given, hc.resting⟩
      show Delivers s.input p.file
      rw [hurl]
      trivial
    next f hf =>
      rw [hf] at hdelivers
      exact hc.accept hg hdelivers.1 hdelivers.2.1 hdelivers.2.2 hthrows
    next hother =>
      rw [hother] at hdelivers
      exact hdelivers.elim

/-- The answer of the server is taken. -/
theorem Calm.respond {response : Except Fail Response} (hg : Genuine setup p) (hc : Calm p s)
    (he : (Event.respond response throws).Smooth p.file) :
    Fine p (s.respond response throws) := by
  obtain ⟨⟨r, body, rfl, hok, hbody, hstream⟩, hthrows⟩ := he
  unfold State.respond
  dsimp only
  rw [hok, hbody]
  exact hc.accept hg hstream rfl (.inl rfl) hthrows

/-- The magic and the length of the header are accepted. -/
theorem Calm.onHead {source : Reader} (hg : Genuine setup p) (hl : Live setup s) (hc : Calm p s)
    (hpc : s.pc = .head) (hon : s.source.Onward source) (hwithin : source.out <+: p.file)
    (hout : source.out = s.store .head) (hthrows : ∀ n, throws n = false) :
    Fine p (({ s with source } : State).onHead throws) := by
  have hrank : s.pc.rank = 1 := by rw [hpc]; rfl
  have hlength : (s.store .head).length = 12 := by
    have hat := hl.sourceAt
    unfold SourceAt at hat
    rw [hpc] at hat
    exact hat.2
  have hhead : s.store .head = MAGIC ++ u32 p.header.length := by
    rw [hout, p.head] at hwithin
    obtain ⟨rest, hrest⟩ := hwithin
    exact (List.append_inj hrest (by
      rw [hlength, List.length_append, u32, length_leBytes]
      rfl)).1
  have hok := headOk_written hg.short
  unfold State.onHead
  dsimp only
  split
  next hrefused => exact absurd hrefused (hc.not_refused (hthrows 2))
  · split
    next hmagic =>
      rw [hhead] at hmagic
      exact absurd hok.magic hmagic
    · split
      next hbound =>
        rw [hhead, ← hok.size] at hbound
        have hshort := hg.short
        omega
      · split
        next hrefused => exact absurd hrefused (hc.not_refused (hthrows 3))
        · exact fine_of_calm rfl (hc.onto (by omega) ⟨by decide, by decide⟩ hon.closed hon.max)

/-- The header is accepted. -/
theorem Calm.onHeader {source : Reader} (hg : Genuine setup p) (hl : Live setup s) (hc : Calm p s)
    (hpc : s.pc = .header) (hon : s.source.Onward source) (hwithin : source.out <+: p.file)
    (hout : source.out = s.store .head ++ s.store .header) : Fine p ({ s with source } : State).onHeader := by
  have hrank : s.pc.rank = 2 := by rw [hpc]; rfl
  obtain ⟨rest, hrest⟩ := hwithin
  rw [hout] at hrest
  obtain ⟨-, hheader, -⟩ := hg.same_header (hl.head (by omega)) hrest
  have hparsed := hg.header
  rw [← hheader] at hparsed
  unfold State.onHeader
  dsimp only
  rw [hparsed]
  exact fine_of_calm rfl (hc.onto (by omega) ⟨by decide, by decide⟩ hon.closed hon.max)

/-- The decompressor is set up. -/
theorem Calm.begun {total : Nat} (hc : Calm p s) (hroom : p.file.length ≤ total) (hsizes : s.sizes.raw = p.raw.length) :
    Fine p { s with
      pc := .metaLength
      source := { s.source with max := total }
      compressed := .readable
      raw := (Reader.new .empty s.sizes.raw).into .metaLength
      store := s.store.allocate .metaLength 4 } := by
  refine fine_of_calm rfl ?_
  exact
    { aborted := hc.aborted
      healthy := (show Compressed.readable ≠ .errored ∧ Compressed.readable ≠ .cancelled by decide)
      sourceOpen := hc.sourceOpen
      rawOpen := rfl
      input := nofun
      file := hc.file
      room := fun _ => hroom
      items := ⟨[], rfl⟩
      unbroken := nofun
      limit := fun _ => hsizes
      given := hc.given
      resting := hc.resting }

/-- The base is the one in the header. -/
theorem Calm.onBase {failed : Option Fail} (hg : Genuine setup p) (hl : Live setup s) (hc : Calm p s)
    (hpc : s.pc = .base) (hfailed : failed = none) (hthrows : ∀ n, throws n = false) :
    Fine p (s.onBase setup failed throws) := by
  have hrank : s.pc.rank = 3 := by rw [hpc]; rfl
  obtain ⟨-, hheader, hsizes, -⟩ := hl.same hg hc (by omega)
  have htotal : expected (s.store .header).length s.sizes.packed = p.file.length := by
    rw [hheader, hsizes, hg.length]
    rfl
  subst hfailed
  unfold State.onBase
  dsimp only
  rw [htotal]
  have hrefused : ¬s.refused (throws 0) = true := hc.not_refused (hthrows 0)
  rw [if_neg hrefused]
  have hbase : ¬sameBase s.headerTree setup.vault.base = false := by
    have hparsed := hl.sizes (by omega)
    rw [State.headerTree, hheader]
    cases htree : parseJson p.header with
    | error e =>
      rw [hheader, htree] at hparsed
      cases hparsed
    | ok tree =>
      rw [parseJson_tree htree, hg.base tree htree]
      decide
  rw [if_neg hbase]
  have hsize : ¬(LIMIT + 65536 < p.file.length ∨ s.declared.differs p.file.length = true) := by
    rintro (hlong | hdiffers)
    · have hbound := hg.bound
      rw [← hg.length] at hbound
      omega
    · unfold State.declared at hdiffers
      cases hf : s.file with
      | none =>
        rw [hf] at hdiffers
        cases hdiffers
      | some f =>
        rw [hf] at hdiffers
        dsimp only at hdiffers
        rcases (hc.file f hf).2 with hfits | hfits
        · rw [hfits] at hdiffers
          cases hdiffers
        · rw [hfits] at hdiffers
          exact of_decide_eq_true hdiffers rfl
  rw [if_neg hsize]
  split
  next hrefused => exact absurd hrefused (hc.not_refused (hthrows 1))
  · exact hc.begun (Nat.le_refl _) (congrArg Sizes.raw hsizes)

/-- The length of the sections. -/
theorem Parts.raw_length (p : Parts) :
    p.raw.length = 4 + p.metadata.length + p.state.length + p.overlay.length := by
  simp only [Parts.raw, List.length_append, u32, length_leBytes]

/-- The number in front of the metadata. -/
theorem same_metaLength {b : Bytes} (hlength : b.length = 4) (h : b <+: p.raw) : b = u32 p.metadata.length := by
  obtain ⟨rest, hrest⟩ := h
  simp only [Parts.raw, List.append_assoc] at hrest
  exact (List.append_inj hrest (by rw [hlength, u32, length_leBytes])).1

/-- The length of the metadata is read back. -/
theorem Genuine.number_metaLength (hg : Genuine setup p) : number (u32 p.metadata.length) = p.metadata.length := by
  have hshort := hg.prefixed
  rw [number, u32, leNat_leBytes 4 _ (by omega)]

/-- The metadata behind it. -/
theorem Genuine.same_metadata (hg : Genuine setup p) {a b : Bytes} (ha : a.length = 4) (hb : b.length = number a)
    (h : a ++ b <+: p.raw) : b = p.metadata := by
  have hnumber := same_metaLength ha ((List.prefix_append a b).trans h)
  rw [hnumber, hg.number_metaLength] at hb
  obtain ⟨rest, hrest⟩ := h
  simp only [Parts.raw, List.append_assoc] at hrest
  obtain ⟨-, hbehind⟩ := List.append_inj hrest (by rw [ha, u32, length_leBytes])
  exact (List.append_inj hbehind hb).1

section Raw

variable (hg : Genuine setup p) (hl : Live setup s) (hc : Calm p s)
include hg hl hc

/-- What was read before a part is a front of the sections. -/
theorem Live.ahead_front {part : Part} (hpart : s.pc.part = some part) : s.store.ahead part <+: p.raw := by
  have hrank : 4 ≤ s.pc.rank := by
    rcases part_rank hpart with ⟨-, h⟩ | ⟨-, h⟩ | ⟨-, h⟩ | ⟨-, h⟩ <;> omega
  obtain ⟨⟨pos, stage, ht⟩, hat⟩ := hl.rawAt.filling part hpart
  have hout := (hl.rawWithin hg hc hrank).out_front
  unfold Reader.At at hat
  rw [ht] at hat
  rw [hat.2.2] at hout
  exact (List.prefix_append _ _).trans hout

/-- The sizes of the sections are right as soon as the arrays are there. -/
theorem Live.section_lengths (hrank : 5 ≤ s.pc.rank) :
    (s.store .metadata).length = p.metadata.length ∧
      (6 ≤ s.pc.rank → (s.store .state).length = p.state.length ∧ (s.store .overlay).length = p.overlay.length) := by
  have hsections := hl.sections hrank
  have hprefixes : s.store .metaLength <+: p.raw ∧
      (6 ≤ s.pc.rank → s.store .metaLength ++ s.store .metadata <+: p.raw) := by
    rcases late_cases (show 4 ≤ s.pc.rank by omega) with hpc | hpc | hpc | hpc | hpc
    · rw [hpc] at hrank
      exact absurd hrank (show ¬5 ≤ 4 by decide)
    · refine ⟨hl.ahead_front hg hc (show s.pc.part = some .metadata by rw [hpc]; rfl), fun hr => ?_⟩
      rw [hpc] at hr
      exact absurd hr (show ¬6 ≤ 5 by decide)
    · have hahead := hl.ahead_front hg hc (show s.pc.part = some .state by rw [hpc]; rfl)
      exact ⟨(List.prefix_append _ _).trans hahead, fun _ => hahead⟩
    · have hahead := (List.prefix_append _ _).trans
        (hl.ahead_front hg hc (show s.pc.part = some .overlay by rw [hpc]; rfl))
      exact ⟨(List.prefix_append _ _).trans hahead, fun _ => hahead⟩
    · have hout := (hl.rawWithin hg hc (by omega)).out_front
      rw [(hl.rawAt.ending hpc).2] at hout
      have hahead := (List.prefix_append _ _).trans ((List.prefix_append _ _).trans hout)
      exact ⟨(List.prefix_append _ _).trans hahead, fun _ => hahead⟩
  have hnumber := same_metaLength hsections.prefixed.1 hprefixes.1
  refine ⟨?_, fun hr => ?_⟩
  · rw [hsections.prefixed.2, hnumber, hg.number_metaLength]
  · have hmetadata := hg.same_metadata hsections.prefixed.1 hsections.prefixed.2 (hprefixes.2 hr)
    obtain ⟨hparsed, hlengths⟩ := hsections.parsed hr
    obtain ⟨-, -, hsizes, -⟩ := hl.same hg hc (by omega)
    rw [hmetadata, hg.metadata] at hparsed
    rw [hmetadata, ← Except.ok.inj hparsed, hsizes] at hlengths
    have hsame := hg.sections.symm.trans hlengths
    obtain ⟨hstate, hoverlay⟩ := Prod.mk.inj (Except.ok.inj hsame)
    exact ⟨hstate.symm, hoverlay.symm⟩

/-- There are bytes enough for every section. -/
theorem Live.section_room {part : Part} (hpart : s.pc.part = some part) :
    (s.store.ahead part).length + (s.store part).length ≤ p.raw.length := by
  have htotal := p.raw_length
  rcases part_rank hpart with ⟨rfl, hrank⟩ | ⟨rfl, hrank⟩ | ⟨rfl, hrank⟩ | ⟨rfl, hrank⟩
  · have hpc : s.pc = .metaLength := by
      revert hrank hpart
      cases s.pc <;> simp [Pc.rank, Pc.part]
    rw [hl.rawAt.four hpc, show s.store.ahead .metaLength = [] from rfl, List.length_nil]
    omega
  · have hlengths := hl.section_lengths hg hc (by omega)
    rw [Store.ahead, (hl.sections (by omega)).prefixed.1, hlengths.1]
    omega
  · have hlengths := hl.section_lengths hg hc (by omega)
    rw [Store.ahead, List.length_append, (hl.sections (by omega)).prefixed.1, hlengths.1, (hlengths.2 (by omega)).1]
    omega
  · have hlengths := hl.section_lengths hg hc (by omega)
    rw [Store.ahead, List.length_append, List.length_append, (hl.sections (by omega)).prefixed.1, hlengths.1,
      (hlengths.2 (by omega)).1, (hlengths.2 (by omega)).2]
    omega

/-- And none is left behind the last one. -/
theorem Live.section_all (hpc : s.pc = .last) :
    (s.store.ahead .overlay ++ s.store .overlay).length = p.raw.length := by
  have hrank : s.pc.rank = 8 := by rw [hpc]; rfl
  have hlengths := hl.section_lengths hg hc (by omega)
  rw [p.raw_length, Store.ahead, List.length_append, List.length_append, List.length_append,
    (hl.sections (by omega)).prefixed.1, hlengths.1, (hlengths.2 (by omega)).1, (hlengths.2 (by omega)).2]

end Raw

/-- The length of the metadata is accepted. -/
theorem Calm.onMetaLength {raw : Reader} (hg : Genuine setup p) (hl : Live setup s) (hc : Calm p s)
    (hpc : s.pc = .metaLength) (hread : Read s raw .metaLength) (hwithin : raw.out <+: p.raw)
    (hthrows : ∀ n, throws n = false) : Fine p (({ s with raw } : State).onMetaLength throws) := by
  have hrank : s.pc.rank = 4 := by rw [hpc]; rfl
  have hnumber : number (s.store .metaLength) = p.metadata.length := by
    rw [hread.out] at hwithin
    have hsame := same_metaLength (hl.rawAt.four hpc) hwithin
    rw [hsame, hg.number_metaLength]
  obtain ⟨-, -, hsizes, -⟩ := hl.same hg hc (by omega)
  unfold State.onMetaLength
  dsimp only
  split
  next hbad =>
    have htotal := p.raw_length
    have hshort := hg.prefixed
    rw [hnumber, hsizes] at hbad
    have hraw : p.sizes.raw = p.raw.length := rfl
    omega
  · split
    next hrefused => exact absurd hrefused (hc.not_refused (hthrows 2))
    · exact fine_of_calm rfl (hc.reread .metadata (by omega) (by decide) (hread.onward.onto _))

/-- The metadata are accepted. -/
theorem Calm.onMetadata {raw : Reader} (hg : Genuine setup p) (hl : Live setup s) (hc : Calm p s)
    (hpc : s.pc = .metadata) (hread : Read s raw .metadata) (hwithin : raw.out <+: p.raw)
    (hthrows : ∀ n, throws n = false) : Fine p (({ s with raw } : State).onMetadata throws) := by
  have hrank : s.pc.rank = 5 := by rw [hpc]; rfl
  have hsections := hl.sections (by omega)
  have hmetadata : s.store .metadata = p.metadata := by
    rw [hread.out] at hwithin
    exact hg.same_metadata hsections.prefixed.1 hsections.prefixed.2 hwithin
  obtain ⟨-, -, hsizes, -⟩ := hl.same hg hc (by omega)
  have hlengths : sectionsOf p.tree p.metadata.length s.sizes.raw = .ok (p.state.length, p.overlay.length) := by
    rw [hsizes]
    exact hg.sections
  unfold State.onMetadata
  dsimp only
  rw [hmetadata, hg.metadata]
  dsimp only
  rw [hlengths]
  dsimp only
  split
  next hrefused => exact absurd hrefused (hc.not_refused (hthrows 2))
  · exact fine_of_calm rfl (hc.reread .state (by omega) (by decide) (hread.onward.onto _))

/-- The sections end where they should. -/
theorem Calm.onEnd {raw : Reader} (hg : Genuine setup p) (hl : Live setup s) (hc : Calm p s)
    (hpc : s.pc = .last) (hok : raw.Ok)
    (htaken : raw.taken.flatten = s.store.ahead .overlay ++ s.store .overlay)
    (hnext : s.raw.next = some (.done, raw.stream)) (hthrows : ∀ n, throws n = false) :
    Fine p (({ s with raw } : State).onEnd setup throws) := by
  have hrank : s.pc.rank = 8 := by rw [hpc]; rfl
  obtain ⟨-, hheader, hsizes, -⟩ := hl.same hg hc (by omega)
  have hraw : raw.received = s.sizes.raw := by
    rw [hok.received, htaken, hl.section_all hg hc hpc, hsizes]
    rfl
  -- the decompressor has ended, so the source was read to its end
  have hclosed : s.compressed = .closed := by
    rcases Reader.next_cases hnext with ⟨-, -, hclosed | ⟨-, htail⟩⟩ | ⟨-, -, e, he, -⟩ | ⟨-, item, he, -⟩
    · rw [hc.rawOpen] at hclosed
      cases hclosed
    · exact ((hl.flow (by omega)).ended htail).1
    · cases he
    · cases he
  obtain ⟨-, -, -, -, hitems, htail⟩ := (hl.piped (by omega) hc.healthy).closed hclosed
  have hwithin := hl.sourceWithin hc (by omega)
  have hsource : s.source.received = expected (s.store .header).length s.sizes.packed := by
    obtain ⟨rest, hrest, -, hdone⟩ := hwithin.bytes
    have hwhole := hdone htail
    rw [List.map_eq_nil_iff.mp (hrest.symm.trans hitems), List.flatten_nil, List.append_nil] at hwhole
    rw [hwithin.ok.received, hwhole, hheader, hsizes, hg.length]
    rfl
  unfold State.onEnd
  dsimp only
  split
  next hrefused => exact absurd hrefused (hc.not_refused (hthrows 2))
  · split
    next hbad =>
      rcases hbad with hbad | hbad
      · exact absurd hraw hbad
      · exact absurd hsource hbad
    · refine ⟨nofun, fun e => ⟨fun h => ?_, nofun⟩, fun f hf => (hc.file f hf).1⟩
      cases (Pc.closing.inj h)

/-! ## §5. Nothing goes wrong: the records. -/

/-- A record that is handed to the decompressor keeps all calm. -/
theorem Calm.enqueue {pending : Bytes} (hc : Calm p s) (hreadable : s.compressed = .readable) :
    Calm p (s.enqueue pending) := by
  unfold State.enqueue
  split
  next hbad => exact absurd hreadable hbad
  · dsimp only
    split
    · exact hc.repull rfl rfl hc.healthy nofun
    · exact hc.repull rfl rfl hc.healthy nofun

/-- A `pull` starts calmly. -/
theorem Calm.onPull (hc : Calm p s) (hreadable : s.compressed = .readable) (hthrows : ∀ n, throws n = false) :
    Calm p (s.onPull throws) := by
  unfold State.onPull
  split
  next hrefused => exact absurd hrefused (hc.not_refused (hthrows 0))
  · split
    · exact hc.enqueue hreadable
    · split
      · exact hc.repull rfl rfl hc.healthy nofun
      · split
        next hrefused => exact absurd hrefused (hc.not_refused (hthrows 1))
        · exact hc.repull rfl rfl hc.healthy nofun

/-- Once there is a stream of records, it is readable as long as `pull` is busy. -/
theorem Live.readable (hl : Live setup s) (hc : Calm p s) (hrank : 4 ≤ s.pc.rank)
    (hbusy : s.pull ≠ .idle ∨ s.source.task ≠ none) : s.compressed = .readable := by
  have hmade := hl.made hrank
  have hopen := hl.not_closed hrank hbusy
  have hhealthy := hc.healthy
  unfold State.Healthy at hhealthy
  revert hmade hopen hhealthy
  cases s.compressed <;> simp

/-- A `pull` that was resting goes on. -/
theorem Calm.onPulled (hl : Live setup s) (hc : Calm p s) (hrank : 4 ≤ s.pc.rank) (hpull : s.pull = .resting)
    (hthrows : ∀ n, throws n = false) : Calm p (s.onPulled throws) := by
  unfold State.onPulled
  split
  next hrefused => exact absurd hrefused (hc.not_refused (hthrows 0))
  · split
    · exact hc.enqueue (hl.readable hc hrank (.inl (by rw [hpull]; decide)))
    next hnone => exact absurd hnone (hc.resting hpull)

/-- A record of the file is opened. -/
theorem Calm.onSealed {source : Reader} (hg : Genuine setup p) (hl : Live setup s) (hc : Calm p s)
    (hrank : 4 ≤ s.pc.rank) (hgot : Received s source) (hwithin : source.out <+: p.file) :
    Calm p (({ s with source } : State).onSealed setup) := by
  have hpiped := hl.piped hrank hc.healthy
  obtain ⟨hhead, hheader, hsizes, -⟩ := hl.same hg hc (by omega)
  have hindex := hgot.index
  have hlength := hgot.length
  rw [hsizes] at hindex hlength
  -- the record is the one that stands there in the file
  have hrecord : p.sealed[s.index]? = some (s.store .sealed) := by
    have hout := hwithin
    rw [hgot.out, hpiped.hashed, hhead, hheader, Parts.file, List.append_assoc (_ ++ _),
      List.prefix_append_right_inj] at hout
    have hflat : ((s.opened.map Prod.fst) ++ [s.store .sealed]).flatten <+: p.sealed.flatten := by
      rw [List.flatten_append, List.flatten_singleton]
      exact hout
    have hlast : ((s.opened.map Prod.fst) ++ [s.store .sealed])[s.index]? = some (s.store .sealed) := by
      rw [List.getElem?_append_right (by rw [List.length_map, hpiped.index]), List.length_map, hpiped.index,
        Nat.sub_self]
      rfl
    have hfront : (s.opened.map Prod.fst) ++ [s.store .sealed] <+: p.sealed := by
      refine flatten_front ?_ (fun k c d hk hd => ?_) hflat
      · rw [List.length_append, List.length_map, List.length_singleton, hg.count, ← hpiped.index]
        exact hindex
      · rw [(hg.opened k d hd).2]
        rcases Nat.lt_or_ge k s.opened.length with hlt | hge
        · rw [List.getElem?_append_left (by rw [List.length_map]; exact hlt), List.getElem?_map] at hk
          obtain ⟨⟨c', b⟩, hpair, rfl⟩ := Option.map_eq_some_iff.mp hk
          have hsealed := (hpiped.opened k c' b hpair).sealed
          rw [hsizes] at hsealed
          exact hsealed
        · have hk' : k = s.index := by
            have hbound := (List.getElem?_eq_some_iff.mp hk).1
            rw [List.length_append, List.length_map, List.length_singleton] at hbound
            have hcount := hpiped.index
            omega
          rw [hk', hlast] at hk
          rw [← Option.some.inj hk, hk']
          exact hlength
    obtain ⟨rest, hrest⟩ := hfront
    rw [← hrest, List.getElem?_append_left (List.getElem?_eq_some_iff.mp hlast).1]
    exact hlast
  obtain ⟨hopen, -⟩ := hg.opened s.index (s.store .sealed) hrecord
  have hplain : (slice p.compressed (s.index * CHUNK) CHUNK).length = (s.store .sealed).length - 62 := by
    have hpacked : p.sizes.packed = p.compressed.length := rfl
    rw [hlength, hpacked, recordSize, slice, List.length_take, List.length_drop, Nat.add_sub_cancel]
  unfold State.onSealed
  dsimp only
  rw [hheader, hopen]
  dsimp only
  split
  next hbad => exact absurd hplain hbad
  · exact hc.repull hgot.onward.closed hgot.onward.max hc.healthy (fun _ => Option.some_ne_none _)

/-- The source ends after the last record. -/
theorem Calm.onSourceEnd {source : Reader} (hc : Calm p s) (hreadable : s.compressed = .readable)
    (hon : s.source.Onward source) : Calm p ({ s with source } : State).onSourceEnd := by
  unfold State.onSourceEnd
  split
  · exact hc.repull hon.closed hon.max (by decide) nofun
  next hbad => exact absurd hreadable hbad

/-- A record that is to come is counted. -/
theorem record_counted {front packed chunk index total : Nat} (hlt : index < total) :
    front + (min packed (index * chunk) + index * 62) + (min chunk (packed - index * chunk) + 62) ≤
      front + packed + total * 62 := by
  have hnext : (index + 1) * 62 ≤ total * 62 := Nat.mul_le_mul_right 62 hlt
  omega

/-- There are bytes enough for the next record. -/
theorem Live.record_room (hg : Genuine setup p) (hl : Live setup s) (hc : Calm p s) (hrank : 4 ≤ s.pc.rank) :
    (s.index < records s.sizes.packed → s.hashed.length + (recordSize s.sizes.packed s.index + 62) ≤ p.file.length) ∧
      (s.index = records s.sizes.packed → p.file.length ≤ s.hashed.length) := by
  have hpiped := hl.piped hrank hc.healthy
  obtain ⟨hhead, hheader, hsizes, -⟩ := hl.same hg hc (by omega)
  have hopened := hpiped.opened
  have hcount := hpiped.index
  rw [hheader, hsizes] at hopened
  have hpacked : p.sizes.packed = p.compressed.length := rfl
  have hsealed : (s.opened.map Prod.fst).flatten.length =
      min p.compressed.length (s.index * CHUNK) + s.index * 62 := by
    have hlength := @length_records p.compressed.length (s.opened.map Prod.fst) fun k c hk => by
      rw [List.getElem?_map] at hk
      obtain ⟨⟨c', b⟩, hpair, rfl⟩ := Option.map_eq_some_iff.mp hk
      exact (hopened k c' b hpair).sealed
    rw [List.length_map, ← hcount] at hlength
    exact hlength
  have hhashed : s.hashed.length = 12 + p.header.length + (min p.compressed.length (s.index * CHUNK) + s.index * 62) := by
    rw [hpiped.hashed, List.length_append, List.length_append, hsealed, hheader, (hl.head (by omega)).length]
  have hcover := records_cover p.compressed.length
  rw [hhashed, hg.length, expected, hsizes, hpacked]
  refine ⟨fun hlt => ?_, fun hall => ?_⟩
  · rw [recordSize]
    exact record_counted hlt
  · rw [hall]
    omega

/-! ## §6. Every event. -/

variable {turn : Reader → Store → Bool → Option Outcome}

/-- Why a turn has thrown. -/
theorem Turned.reason {r r' : Reader} {store : Store} {refused : Bool} {base : Bytes} {job : Job} {e : Fail}
    (h : Turned r store refused base job (.throws r' e)) : refused = true ∨ r.Fault store job := by
  cases h with
  | thrown hclosed htask hreason => exact hreason

/-- A turn of the source in the head. -/
theorem Calm.head {pos : Nat} {stage : Stage} (hg : Genuine setup p) (hi : Inv setup s) (hc : Calm p s)
    (hm : Method turn) (hthrows : ∀ n, throws n = false) (ht : s.source.task = some (.into .head pos, stage))
    (hp : s.perform setup .source throws turn = some s') : Fine p s' := by
  have hrank : s.pc.rank = 1 := by
    rcases hi.owners.source _ _ _ ht with ⟨-, hr⟩ | ⟨hpart, -⟩ | hpart
    · exact hr
    · cases hpart
    · cases hpart
  have hpc : s.pc = .head := by
    revert hrank
    cases s.pc <;> intro hrank <;> first | rfl | cases hrank
  have hl := hi.live (by rw [hpc]; rfl)
  have hwithin := hl.sourceWithin hc (by omega)
  obtain ⟨hfilling, hlength⟩ : Filling s.source s.store .head [] ∧ (s.store .head).length = 12 := by
    have hat := hl.sourceAt
    unfold SourceAt at hat
    rw [hpc] at hat
    exact hat
  obtain ⟨job, stage', ht', hcases⟩ := perform_cases hp
  obtain ⟨rfl, rfl⟩ := Prod.mk.inj (Option.some.inj (ht'.symm.trans ht))
  rcases hcases with ⟨r, store, hturn, rfl⟩ | ⟨r, hturn, rfl⟩ | ⟨r, e, hturn, rfl⟩
  · obtain ⟨hon, -, -, -⟩ := (hm.turned hwithin.ok hfilling.2 ht hturn).filling
    exact fine_of_calm (running_of_rank (show 1 ≤ s.pc.rank by omega))
      (hc.onto (by omega) (show 1 ≤ s.pc.rank ∧ s.pc.rank ≤ 3 by omega) hon.closed hon.max)
  · obtain ⟨hon, -, hok, hout⟩ := (hm.turned hwithin.ok hfilling.2 ht hturn).full
    exact hc.onHead hg hl hpc hon (hwithin.onward hon hok).out_front hout hthrows
  · rcases (hm.turned hwithin.ok hfilling.2 ht hturn).reason with hrefused | hfault
    · exact absurd hrefused (hc.not_refused (hthrows 0))
    · refine absurd hfault (hwithin.no_fault hfilling.2 ht ?_)
      rw [hlength, hg.length, expected, List.length_nil]
      omega

/-- A turn of the source in the header. -/
theorem Calm.header {pos : Nat} {stage : Stage} (hg : Genuine setup p) (hi : Inv setup s) (hc : Calm p s)
    (hm : Method turn) (hthrows : ∀ n, throws n = false) (ht : s.source.task = some (.into .header pos, stage))
    (hp : s.perform setup .source throws turn = some s') : Fine p s' := by
  have hrank : s.pc.rank = 2 := by
    rcases hi.owners.source _ _ _ ht with ⟨hpart, -⟩ | ⟨-, hr⟩ | hpart
    · cases hpart
    · exact hr
    · cases hpart
  have hpc : s.pc = .header := by
    revert hrank
    cases s.pc <;> intro hrank <;> first | rfl | cases hrank
  have hl := hi.live (by rw [hpc]; rfl)
  have hwithin := hl.sourceWithin hc (by omega)
  have hfilling : Filling s.source s.store .header (s.store .head) := by
    have hat := hl.sourceAt
    unfold SourceAt at hat
    rw [hpc] at hat
    exact hat
  have hhead := hl.head (by omega)
  have hsize : (s.store .header).length = p.header.length := by
    have hat := hfilling.2
    unfold Reader.At at hat
    rw [ht] at hat
    obtain ⟨rest, hrest⟩ := hwithin.out_front
    rw [hat.2.2, p.head, List.append_assoc] at hrest
    obtain ⟨hsame, -⟩ := List.append_inj hrest (by
      rw [hhead.length, List.length_append, u32, length_leBytes]
      rfl)
    rw [hhead.size, hsame, ← (headOk_written hg.short).size]
  obtain ⟨job, stage', ht', hcases⟩ := perform_cases hp
  obtain ⟨rfl, rfl⟩ := Prod.mk.inj (Option.some.inj (ht'.symm.trans ht))
  rcases hcases with ⟨r, store, hturn, rfl⟩ | ⟨r, hturn, rfl⟩ | ⟨r, e, hturn, rfl⟩
  · obtain ⟨hon, -, -, -⟩ := (hm.turned hwithin.ok hfilling.2 ht hturn).filling
    exact fine_of_calm (running_of_rank (show 1 ≤ s.pc.rank by omega))
      (hc.onto (by omega) (show 1 ≤ s.pc.rank ∧ s.pc.rank ≤ 3 by omega) hon.closed hon.max)
  · obtain ⟨hon, -, hok, hout⟩ := (hm.turned hwithin.ok hfilling.2 ht hturn).full
    exact hc.onHeader hg hl hpc hon (hwithin.onward hon hok).out_front hout
  · rcases (hm.turned hwithin.ok hfilling.2 ht hturn).reason with hrefused | hfault
    · exact absurd hrefused (hc.not_refused (hthrows 0))
    · refine absurd hfault (hwithin.no_fault hfilling.2 ht ?_)
      rw [hhead.length, hsize, hg.length, expected]
      omega

/-- A turn of the source in a record. -/
theorem Calm.record {job : Job} {stage : Stage} (hg : Genuine setup p) (hl : Live setup s) (hc : Calm p s)
    (hm : Method turn) (hrank : 4 ≤ s.pc.rank) (hthrows : ∀ n, throws n = false)
    (ht : s.source.task = some (job, stage)) (hp : s.perform setup .source throws turn = some s') : Calm p s' := by
  have hwithin := hl.sourceWithin hc (by omega)
  have hroom := hl.record_room hg hc hrank
  have hreadable := hl.readable hc hrank (.inr (by rw [ht]; nofun))
  obtain ⟨-, hpending, hpart⟩ := hl.pulling hrank hc.healthy ht
  obtain ⟨job', stage', ht', hcases⟩ := perform_cases hp
  obtain ⟨rfl, rfl⟩ := Prod.mk.inj (Option.some.inj (ht'.symm.trans ht))
  rcases hpart with ⟨⟨⟨pos, stage₂, htask⟩, hat⟩, hindex, hlength⟩ | ⟨⟨⟨stage₂, htask⟩, hout⟩, hindex⟩
  · obtain ⟨rfl, rfl⟩ := Prod.mk.inj (Option.some.inj (ht.symm.trans htask))
    rcases hcases with ⟨r, store, hturn, rfl⟩ | ⟨r, hturn, rfl⟩ | ⟨r, e, hturn, rfl⟩
    · obtain ⟨hon, -, -, -⟩ := (hm.turned hwithin.ok hat ht hturn).filling
      exact hc.repull hon.closed hon.max hc.healthy hc.resting
    · obtain ⟨hon, -, hok, hout⟩ := (hm.turned hwithin.ok hat ht hturn).full
      exact hc.onSealed hg hl hrank ⟨hok, hon, hout, hindex, hlength, hpending⟩ (hwithin.onward hon hok).out_front
    · rcases (hm.turned hwithin.ok hat ht hturn).reason with hrefused | hfault
      · exact absurd hrefused (hc.not_refused (hthrows 0))
      · refine absurd hfault (hwithin.no_fault hat ht ?_)
        rw [hlength]
        exact hroom.1 hindex
  · obtain ⟨rfl, rfl⟩ := Prod.mk.inj (Option.some.inj (ht.symm.trans htask))
    have hat : s.source.At s.store s.hashed := by
      unfold Reader.At
      rw [htask]
      exact hout
    rcases hcases with ⟨r, store, hturn, rfl⟩ | ⟨r, hturn, rfl⟩ | ⟨r, e, hturn, rfl⟩
    · obtain ⟨hon, -, -, -⟩ := (hm.turned hwithin.ok hat ht hturn).ending
      exact hc.repull hon.closed hon.max hc.healthy hc.resting
    · obtain ⟨-, hon, -⟩ := (hm.turned hwithin.ok hat ht hturn).over
      exact hc.onSourceEnd hreadable hon
    · rcases (hm.turned hwithin.ok hat ht hturn).reason with hrefused | hfault
      · exact absurd hrefused (hc.not_refused (hthrows 0))
      · refine absurd hfault (hwithin.no_rest ?_)
        rw [hout]
        exact hroom.2 hindex

/-- A turn of the second reader. -/
theorem Calm.raw (hg : Genuine setup p) (hi : Inv setup s) (hc : Calm p s) (hm : Method turn)
    (hthrows : ∀ n, throws n = false) (hp : s.perform setup .raw throws turn = some s') : Fine p s' := by
  obtain ⟨job, stage, ht, hcases⟩ := perform_cases hp
  have ht : s.raw.task = some (job, stage) := ht
  have hrank : 4 ≤ s.pc.rank := hi.owners.raw (by rw [ht]; nofun)
  have hl := hi.live (running_of_rank (by omega))
  have hwithin := hl.rawWithin hg hc hrank
  have hrun : s.pc.running = true := running_of_rank (by omega)
  rcases hl.reading hrank ht with ⟨part, pos, rfl, hpart, hat⟩ | ⟨rfl, hpc, hat⟩
  · rcases hcases with ⟨r, store, hturn, rfl⟩ | ⟨r, hturn, rfl⟩ | ⟨r, e, hturn, rfl⟩
    · obtain ⟨hon, -, -, -⟩ := (hm.turned hwithin.ok hat ht hturn).filling
      exact fine_of_calm hrun (hc.reread s.pc hrank hrank hon)
    · obtain ⟨hon, -, hok, hout⟩ := (hm.turned hwithin.ok hat ht hturn).full
      have hread : Read s r part := ⟨hok, hon, hout⟩
      have hpre := (hwithin.onward hon hok).out_front
      revert hpart
      cases hpc : s.pc <;> intro hpart <;> cases hpart
      · exact hc.onMetaLength hg hl hpc hread hpre hthrows
      · exact hc.onMetadata hg hl hpc hread hpre hthrows
      · exact fine_of_calm rfl (hc.reread .overlay hrank (by decide) (hon.onto _))
      · exact fine_of_calm rfl (hc.reread .last hrank (by decide) (hon.onto _))
    · rcases (hm.turned hwithin.ok hat ht hturn).reason with hrefused | hfault
      · exact absurd hrefused (hc.not_refused (hthrows 0))
      · exact absurd hfault (hwithin.no_fault hat ht (hl.section_room hg hc hpart))
  · rcases hcases with ⟨r, store, hturn, rfl⟩ | ⟨r, hturn, rfl⟩ | ⟨r, e, hturn, rfl⟩
    · obtain ⟨hon, -, -, -⟩ := (hm.turned hwithin.ok hat ht hturn).ending
      exact fine_of_calm hrun (hc.reread s.pc hrank hrank hon)
    · obtain ⟨-, -, -, hok, -, htaken, hnext⟩ := (hm.turned hwithin.ok hat ht hturn).over
      exact hc.onEnd hg hl hpc hok htaken hnext hthrows
    · rcases (hm.turned hwithin.ok hat ht hturn).reason with hrefused | hfault
      · exact absurd hrefused (hc.not_refused (hthrows 0))
      · refine absurd hfault (hwithin.no_rest ?_)
        unfold Reader.At at hat
        rw [ht] at hat
        rw [show s.raw.out = _ from hat, hl.section_all hg hc hpc]

/-- A turn of either reader keeps the function fine. -/
theorem Fine.turns {side : Side} (hg : Genuine setup p) (hi : Inv setup s) (hf : Fine p s) (hm : Method turn)
    (hthrows : ∀ n, throws n = false) (hp : s.perform setup side throws turn = some s') : Fine p s' := by
  cases side with
  | raw =>
    obtain ⟨job, stage, ht, -⟩ := perform_cases hp
    have hrank : 4 ≤ s.pc.rank := hi.owners.raw (by rw [show s.raw.task = some (job, stage) from ht]; nofun)
    exact (hf.calm (running_of_rank (by omega))).raw hg hi hm hthrows hp
  | source =>
    obtain ⟨job, stage, ht, -⟩ := perform_cases hp
    have ht : s.source.task = some (job, stage) := ht
    by_cases hhead : job.part = some .head
    · cases job with
      | finish => cases hhead
      | into part pos =>
        obtain rfl := Option.some.inj hhead
        rcases hi.owners.source _ _ _ ht with ⟨-, hr⟩ | ⟨hpart, -⟩ | hpart
        · exact (hf.calm (running_of_rank (by omega))).head hg hi hm hthrows ht hp
        · cases hpart
        · cases hpart
    · by_cases hheader : job.part = some .header
      · cases job with
        | finish => cases hheader
        | into part pos =>
          obtain rfl := Option.some.inj hheader
          rcases hi.owners.source _ _ _ ht with ⟨hpart, -⟩ | ⟨-, hr⟩ | hpart
          · cases hpart
          · exact (hf.calm (running_of_rank (by omega))).header hg hi hm hthrows ht hp
          · cases hpart
      · refine hf.aside (hi.owners.record_aside hm ht hhead hheader hp) fun hrun => ?_
        have hl := hi.live hrun
        exact (hf.calm hrun).record hg hl hm (hl.rank_of_task ht hhead hheader) hthrows ht hp

/-- **Nothing goes wrong.** -/
theorem fine_step (hg : Genuine setup p) (hi : Inv setup s) (hf : Fine p s) (e : Event) (he : e.Smooth p.file)
    (hs : step setup s e = some s') : Fine p s' := by
  unfold step at hs
  cases e with
  | enter throws =>
    dsimp only at hs
    split at hs
    next hpc =>
      obtain rfl := Option.some.inj hs
      exact (hf.calm (by rw [hpc]; rfl)).enter hg hpc he
    · cases hs
  | respond response throws =>
    dsimp only at hs
    split at hs
    next hpc =>
      obtain rfl := Option.some.inj hs
      exact (hf.calm (by rw [hpc]; rfl)).respond hg he
    · cases hs
  | turn side throws => exact hf.turns hg hi method_turn he hs
  | answer side throws => exact hf.turns hg hi method_answer he hs
  | rest side throws => exact hf.turns hg hi method_rest he hs
  | base failed throws =>
    dsimp only at hs
    split at hs
    next hpc =>
      obtain rfl := Option.some.inj hs
      have hrun : s.pc.running = true := by rw [hpc]; rfl
      exact (hf.calm hrun).onBase hg (hi.live hrun) hpc he.1 he.2
    · cases hs
  | pull throws =>
    dsimp only at hs
    split at hs
    next hready =>
      obtain rfl := Option.some.inj hs
      exact hf.aside (aside_onPull s throws) fun hrun => (hf.calm hrun).onPull hready.1 he
    · cases hs
  | pulled throws =>
    dsimp only at hs
    split at hs
    next hrest =>
      obtain rfl := Option.some.inj hs
      refine hf.aside (aside_onPulled s throws) fun hrun => (hf.calm hrun).onPulled (hi.live hrun) ?_ hrest he
      exact (hi.live hrun).rank_of_made (.inr (by rw [hrest]; decide))
    · cases hs
  | inflate b =>
    dsimp only at hs
    split at hs
    next hready =>
      obtain rfl := Option.some.inj hs
      refine hf.aside ⟨rfl, rfl, rfl, rfl, fun _ _ _ ht => .inr ht⟩ fun hrun => ?_
      have hc := hf.calm hrun
      have hl := hi.live hrun
      obtain ⟨waiting, hwaiting⟩ := hc.items
      -- What is given is a front of the raw bytes, as what is fed is one of the compressed.
      have hfed := (hl.fed_front hg hc (hl.rank_of_made (.inl hready.1))).1
      refine ⟨hc.aborted, hc.healthy, hc.sourceOpen, hc.rawOpen, hc.input, hc.file, hc.room,
        ⟨waiting ++ [b], ?_⟩, hc.unbroken, hc.limit, ?_, hc.resting⟩
      · show s.raw.stream.items ++ [.bytes b] = _
        rw [hwaiting, List.map_append]
        rfl
      · show (s.given ++ [b]).flatten <+: p.raw
        rw [List.flatten_append, List.flatten_singleton]
        exact hg.inverts.emits _ _ b hfed hc.given hready.2.2.2
    · cases hs
  | inflated =>
    dsimp only at hs
    split at hs
    next hready =>
      obtain rfl := Option.some.inj hs
      refine hf.aside ⟨rfl, rfl, rfl, rfl, fun _ _ _ ht => .inr ht⟩ fun hrun => ?_
      have hc := hf.calm hrun
      exact ⟨hc.aborted, hc.healthy, hc.sourceOpen, hc.rawOpen, hc.input, hc.file, hc.room, hc.items, nofun,
        hc.limit, hc.given, hc.resting⟩
    · cases hs
  | corrupt e =>
    dsimp only at hs
    split at hs
    next hready =>
      obtain rfl := Option.some.inj hs
      refine hf.aside ⟨rfl, rfl, rfl, rfl, fun _ _ _ ht => .inr ht⟩ fun hrun => ?_
      have hl := hi.live hrun
      have hfed := (hl.fed_front hg (hf.calm hrun) (hl.rank_of_made (.inl hready.1))).1
      -- On a front of the compressed bytes the decompressor does not fail.
      have hnever := hg.inverts.fails _ s.given.flatten e hfed
      rw [hready.2.2] at hnever
      cases hnever
    · cases hs
  | broken e =>
    dsimp only at hs
    split at hs
    next hready =>
      obtain rfl := Option.some.inj hs
      refine hf.aside ⟨rfl, rfl, rfl, rfl, fun _ _ _ ht => .inr ht⟩ fun hrun => ?_
      -- Nor does the pipe break: the stream is healthy while nothing has gone wrong.
      exact absurd hready.1 (hf.calm hrun).healthy.1
    · cases hs
  | cancel =>
    dsimp only at hs
    split at hs
    next hclosed =>
      obtain rfl := Option.some.inj hs
      refine hf.aside ⟨rfl, rfl, rfl, rfl, fun _ _ _ ht => .inr ht⟩ fun hrun => ?_
      rw [(hf.calm hrun).rawOpen] at hclosed
      cases hclosed
    next e _ htail _ =>
      obtain rfl := Option.some.inj hs
      refine hf.aside ⟨rfl, rfl, rfl, rfl, fun _ _ _ ht => .inr ht⟩ fun hrun => ?_
      exact absurd htail ((hf.calm hrun).unbroken e)
    · cases hs
  -- No abort is smooth.
  | abort => exact he.elim
  | closed =>
    dsimp only at hs
    split at hs
    next result hpc =>
      obtain rfl := Option.some.inj hs
      exact ⟨nofun, fun e => ⟨nofun, fun h => by cases Pc.settled.inj h⟩, hf.held⟩
    next e hpc => exact absurd hpc (hf.unfailed e).1
    · cases hs

/-- The function at its start. -/
theorem fine_start {input : Input} (hdelivers : Delivers input p.file) : Fine p (State.start input) := by
  refine fine_of_calm rfl ?_
  exact
    { aborted := rfl
      healthy := (show Compressed.absent ≠ .errored ∧ Compressed.absent ≠ .cancelled by decide)
      sourceOpen := rfl
      rawOpen := rfl
      input := fun _ => hdelivers
      file := nofun
      room := fun h => absurd h (show ¬1 ≤ 0 by decide)
      items := ⟨[], rfl⟩
      unbroken := nofun
      limit := fun h => absurd h (show ¬4 ≤ 0 by decide)
      given := List.nil_prefix
      resting := nofun }

/-- **Every smooth run on a genuine file is fine.** -/
theorem fine_run {input : Input} {events : List Event} (hg : Genuine setup p) (hdelivers : Delivers input p.file)
    (hsmooth : ∀ e ∈ events, e.Smooth p.file)
    (hrun : run (step setup) (State.start input) events = some s) : Inv setup s ∧ Fine p s := by
  have hstep : ∀ s e s', (Inv setup s ∧ Fine p s) → e.Smooth p.file → step setup s e = some s' →
      Inv setup s' ∧ Fine p s' :=
    fun s e s' h he hs => ⟨inv_step h.1 e hs, fine_step hg h.1 h.2 e he hs⟩
  have hall : Throughout (step setup) (fun _ e => e.Smooth p.file) (State.start input) events :=
    throughout_of_mem (fun e he _ => hsmooth e he) (State.start input)
  exact run_invariant hstep events (State.start input) s ⟨inv_start input, fine_start hdelivers⟩ hall hrun

/-- **A genuine file is read back**, in every run in which nobody interferes. -/
theorem genuine_decoded {input : Input} {events : List Event} (hg : Genuine setup p)
    (hdelivers : Delivers input p.file) (hsmooth : ∀ e ∈ events, e.Smooth p.file)
    (hrun : run (step setup) (State.start input) events = some s) :
    (∀ e, s.pc ≠ .closing (.error e) ∧ s.pc ≠ .settled (.error e)) ∧
      ∀ d, s.pc = .settled (.ok d) → d = p.decoded setup := by
  obtain ⟨hinv, hfine⟩ := fine_run hg hdelivers hsmooth hrun
  refine ⟨hfine.unfailed, fun d hd => ?_⟩
  obtain ⟨f, chunks, l, hf, -, hstream, -, hauthentic⟩ := hinv.result d (.inr hd)
  obtain ⟨chunks', hsame, hfile⟩ := hfine.held f hf
  have hbytes : chunks.flatten = p.file := by
    rw [← hfile]
    have hitems := congrArg Stream.items (hstream.symm.trans hsame)
    rw [bytes_injective.list_map hitems]
  exact hg.reading (hbytes ▸ hauthentic)

/-! ## §7. A run goes on. -/

/-- What the function, its readers and its `pull` do: all that is not up to the decompressor, the
consumer or the signal. -/
def Event.Ours : Event → Prop
  | .inflate _ => False
  | .inflated => False
  | .corrupt _ => False
  | .broken _ => False
  | .cancel => False
  | .abort => False
  | _ => True

/-- One of the parties can take its next step, and nothing interferes. -/
def GoesOn (setup : Setup) (file : Bytes) (s : State) : Prop :=
  ∃ e s', e.Ours ∧ e.Smooth file ∧ step setup s e = some s'

/-- The whole file was handed to the decompressor, and the function waits for what it gives. -/
def Starved (s : State) : Prop :=
  s.compressed = .closed ∧ ∃ job, s.raw.task = some (job, .waiting) ∧ s.raw.next = none

/-- A reader whose turn has an outcome can take it. -/
theorem perform_some {side : Side} {job : Job} {stage : Stage} {outcome : Outcome}
    {turn : Reader → Store → Bool → Option Outcome} (htask : (s.reader side).task = some (job, stage))
    (hturn : turn (s.reader side) s.store (s.refused (throws 0)) = some outcome) :
    ∃ s', s.perform setup side throws turn = some s' := by
  unfold State.perform
  rw [htask, hturn]
  exact ⟨_, rfl⟩

/-- A reader that has something to do can do it, unless it waits for a chunk. -/
theorem reader_goesOn {side : Side} {job : Job} {stage : Stage} {file : Bytes}
    (htask : (s.reader side).task = some (job, stage))
    (hnext : stage = .waiting → (s.reader side).next ≠ none) : GoesOn setup file s := by
  have hquiet : ∀ n : Nat, (fun _ : Nat => false) n = false := fun _ => rfl
  cases stage with
  | loop =>
    have hturn : ∃ outcome, Reader.turn (s.reader side) s.store (s.refused false) = some outcome := by
      unfold Reader.turn
      rw [htask]
      cases job with
      | into part pos => exact ⟨_, rfl⟩
      | finish => exact ⟨_, rfl⟩
    obtain ⟨outcome, hturn⟩ := hturn
    have hstep : ∃ s', s.perform setup side (fun _ => false) Reader.turn = some s' :=
      perform_some htask hturn
    obtain ⟨s', hs⟩ := hstep
    exact ⟨.turn side fun _ => false, s', trivial, hquiet, hs⟩
  | waiting =>
    obtain ⟨⟨answer, stream⟩, hsome⟩ := Option.ne_none_iff_exists'.mp (hnext rfl)
    have hturn : ∃ outcome, Reader.answer (s.reader side) s.store (s.refused false) = some outcome := by
      unfold Reader.answer
      rw [htask]
      dsimp only
      rw [hsome]
      exact ⟨_, rfl⟩
    obtain ⟨outcome, hturn⟩ := hturn
    have hstep : ∃ s', s.perform setup side (fun _ => false) Reader.answer = some s' :=
      perform_some htask hturn
    obtain ⟨s', hs⟩ := hstep
    exact ⟨.answer side fun _ => false, s', trivial, hquiet, hs⟩
  | resting =>
    have hturn : ∃ outcome, Reader.rest (s.reader side) s.store (s.refused false) = some outcome := by
      unfold Reader.rest
      rw [htask]
      exact ⟨_, rfl⟩
    obtain ⟨outcome, hturn⟩ := hturn
    have hstep : ∃ s', s.perform setup side (fun _ => false) Reader.rest = some s' :=
      perform_some htask hturn
    obtain ⟨s', hs⟩ := hstep
    exact ⟨.rest side fun _ => false, s', trivial, hquiet, hs⟩

/-- The stream of the file has an answer at any time: its next chunk, or its end. -/
theorem Live.source_next (h : Live setup s) (hc : Calm p s) (hrank : 1 ≤ s.pc.rank) :
    s.source.next ≠ none := by
  obtain ⟨f, hf, -, -⟩ := h.opened hrank
  obtain ⟨-, htail⟩ := (h.source hrank hc.healthy).items f hf
  obtain ⟨⟨chunks, hstream, -⟩, -⟩ := hc.file f hf
  rw [hstream] at htail
  unfold Reader.next
  split
  · exact Option.some_ne_none _
  · split
    · exact Option.some_ne_none _
    · rw [← htail]
      exact Option.some_ne_none _

/-- So a reader of the file always goes on. -/
theorem Live.source_goesOn (hl : Live setup s) (hc : Calm p s) (hrank : 1 ≤ s.pc.rank) {job : Job}
    {stage : Stage} (htask : s.source.task = some (job, stage)) : GoesOn setup p.file s :=
  reader_goesOn (show (s.reader .source).task = _ from htask) fun _ => hl.source_next hc hrank

/-- As long as the file is not handed over, its `pull` goes on. -/
theorem Live.pull_goesOn (hl : Live setup s) (hc : Calm p s) (hrank : 4 ≤ s.pc.rank)
    (hreadable : s.compressed = .readable) : GoesOn setup p.file s := by
  have hquiet : ∀ n : Nat, (fun _ : Nat => false) n = false := fun _ => rfl
  cases hpull : s.pull with
  | idle => exact ⟨.pull fun _ => false, _, trivial, hquiet, if_pos ⟨hreadable, hpull⟩⟩
  | resting => exact ⟨.pulled fun _ => false, _, trivial, hquiet, if_pos hpull⟩
  | reading =>
    have hpulling := (hl.piped hrank hc.healthy).source
    unfold Pulling at hpulling
    rw [hpull] at hpulling
    obtain ⟨-, ⟨⟨⟨pos, stage, htask⟩, -⟩, -⟩ | ⟨⟨⟨stage, htask⟩, -⟩, -⟩⟩ := hpulling
    · exact hl.source_goesOn hc (by omega) htask
    · exact hl.source_goesOn hc (by omega) htask

/-- A section goes on, or its `pull` does, or the decompressor has the whole file. -/
theorem Live.section_goesOn (hl : Live setup s) (hc : Calm p s) (hrank : 4 ≤ s.pc.rank) {job : Job}
    {stage : Stage} (htask : s.raw.task = some (job, stage)) : Starved s ∨ GoesOn setup p.file s := by
  by_cases hnext : stage = .waiting ∧ s.raw.next = none
  · obtain ⟨rfl, hnone⟩ := hnext
    cases hcompressed : s.compressed with
    | closed => exact .inl ⟨hcompressed, job, htask, hnone⟩
    | readable => exact .inr (hl.pull_goesOn hc hrank hcompressed)
    | absent => exact absurd hcompressed (hl.made hrank)
    | errored => exact absurd hcompressed hc.healthy.1
    | cancelled => exact absurd hcompressed hc.healthy.2
  · exact .inr (reader_goesOn (show (s.reader .raw).task = _ from htask) fun hw hno => hnext ⟨hw, hno⟩)

/-- **A run in which nobody interferes goes on** until it has returned, or waits for the decompressor with
the whole file handed to it. -/
theorem genuine_goesOn {input : Input} {events : List Event} (hg : Genuine setup p)
    (hdelivers : Delivers input p.file) (hsmooth : ∀ e ∈ events, e.Smooth p.file)
    (hrun : run (step setup) (State.start input) events = some s) :
    (∃ d, s.pc = .settled (.ok d)) ∨ Starved s ∨ GoesOn setup p.file s := by
  have hquiet : ∀ n : Nat, (fun _ : Nat => false) n = false := fun _ => rfl
  obtain ⟨hinv, hfine⟩ := fine_run hg hdelivers hsmooth hrun
  -- Within a section the second reader goes on, or it waits for the decompressor.
  have hreads : ∀ part, s.pc.part = some part → s.pc.running = true → 4 ≤ s.pc.rank →
      Starved s ∨ GoesOn setup p.file s := by
    intro part hpart hrunning hrank
    obtain ⟨⟨pos, stage, htask⟩, -⟩ := (hinv.live hrunning).rawAt.filling part hpart
    exact (hinv.live hrunning).section_goesOn (hfine.calm hrunning) hrank htask
  cases hpc : s.pc with
  | entry =>
    have hstep : step setup s (.enter fun _ => false) = some (s.enter fun _ => false) := by
      unfold step
      rw [hpc]
    exact .inr (.inr ⟨.enter fun _ => false, _, trivial, hquiet, hstep⟩)
  | fetching =>
    -- The server may answer with the whole file in one chunk.
    let response : Response :=
      { ok := true, status := 200, body := some { items := [p.file].map .bytes, tail := .done } }
    have hstep : step setup s (.respond (.ok response) fun _ => false) =
        some (s.respond (.ok response) fun _ => false) := by
      unfold step
      rw [hpc]
    have hholds : Holds { items := [p.file].map .bytes, tail := .done } p.file :=
      ⟨[p.file], rfl, List.flatten_singleton⟩
    have hsmooth : (Event.respond (.ok response) fun _ => false).Smooth p.file :=
      ⟨⟨response, _, rfl, rfl, rfl, hholds⟩, hquiet⟩
    exact .inr (.inr ⟨.respond (.ok response) fun _ => false, _, trivial, hsmooth, hstep⟩)
  | head =>
    have hrunning : s.pc.running = true := by rw [hpc]; rfl
    have hl := hinv.live hrunning
    have hat := hl.sourceAt
    unfold SourceAt at hat
    rw [hpc] at hat
    obtain ⟨⟨⟨pos, stage, htask⟩, -⟩, -⟩ := hat
    exact .inr (.inr (hl.source_goesOn (hfine.calm hrunning) (by rw [hpc]; decide) htask))
  | header =>
    have hrunning : s.pc.running = true := by rw [hpc]; rfl
    have hl := hinv.live hrunning
    have hat := hl.sourceAt
    unfold SourceAt at hat
    rw [hpc] at hat
    obtain ⟨⟨pos, stage, htask⟩, -⟩ := hat
    exact .inr (.inr (hl.source_goesOn (hfine.calm hrunning) (by rw [hpc]; decide) htask))
  | base =>
    have hstep : step setup s (.base none fun _ => false) =
        some (s.onBase setup none fun _ => false) := by
      unfold step
      rw [hpc]
    exact .inr (.inr ⟨.base none fun _ => false, _, trivial, ⟨rfl, hquiet⟩, hstep⟩)
  | metaLength => exact .inr (hreads .metaLength (by rw [hpc]; rfl) (by rw [hpc]; rfl) (by rw [hpc]; decide))
  | metadata => exact .inr (hreads .metadata (by rw [hpc]; rfl) (by rw [hpc]; rfl) (by rw [hpc]; decide))
  | state => exact .inr (hreads .state (by rw [hpc]; rfl) (by rw [hpc]; rfl) (by rw [hpc]; decide))
  | overlay => exact .inr (hreads .overlay (by rw [hpc]; rfl) (by rw [hpc]; rfl) (by rw [hpc]; decide))
  | last =>
    have hrunning : s.pc.running = true := by rw [hpc]; rfl
    have hl := hinv.live hrunning
    obtain ⟨⟨stage, htask⟩, -⟩ := hl.rawAt.ending hpc
    exact .inr (hl.section_goesOn (hfine.calm hrunning) (by rw [hpc]; decide) htask)
  | closing result =>
    cases result with
    | error e => exact absurd hpc (hfine.unfailed e).1
    | ok d =>
      have hstep : step setup s .closed = some { s with pc := .settled (.ok d) } := by
        unfold step
        rw [hpc]
      exact .inr (.inr ⟨.closed, _, trivial, trivial, hstep⟩)
  | settled result =>
    cases result with
    | error e => exact absurd hpc (hfine.unfailed e).2
    | ok d => exact .inl ⟨d, rfl⟩

end Steps

end My98.Web.StateFormat
