/-
  My98.Web.StatePipe — the two sides of the pipe in `decodeState`.

  `pull` hands records to the decompressor, and the function reads what comes out of it.  Neither side
  sees the variables of the other, so each of them keeps the invariant by itself; they meet at the end,
  where the function has seen the decompressor end.

    • `Live.pullStep`, `Live.rawStep` — the two sides do not disturb each other;
    • `Live.onBase` … `Live.onEnd`    — the function;
    • `Live.accepted`                 — what it has when it returns;
    • `Live.onPull` … `Live.onSourceEnd` — the records.
-/
import Mathlib
import My98.Web.StateInvariant

namespace My98.Web.StateFormat

open My98.Lib My98.Lib.JsonText My98.Torrent.DescriptorText My98.Torrent.Formats My98.Web.LoadProfiles

section Steps

variable {setup : Setup} {s s' : State} {throws : Nat → Bool}

/-! ## §1. The two sides of the pipe. -/

/-- The section depends on its array, and on what the reader does and hands out. -/
theorem Filling.congr {r r' : Reader} {store store' : Store} {part : Part} {base : Bytes}
    (h : Filling r store part base) (htask : r'.task = r.task) (hout : r'.out = r.out)
    (hstore : store' part = store part) : Filling r' store' part base := by
  obtain ⟨⟨pos, stage, ht⟩, hat⟩ := h
  refine ⟨⟨pos, stage, htask.trans ht⟩, ?_⟩
  unfold Reader.At at hat ⊢
  rw [ht] at hat
  rw [htask, ht, hout]
  show pos ≤ (store' part).length ∧ (stage = .waiting → pos < (store' part).length) ∧
    r.out = base ++ (store' part).take pos
  rw [hstore]
  exact hat

/-- The end of the file depends on what its reader does and hands out. -/
theorem Ending.congr {r r' : Reader} {base : Bytes} (h : Ending r base) (htask : r'.task = r.task)
    (hout : r'.out = r.out) : Ending r' base := by
  obtain ⟨⟨stage, ht⟩, hat⟩ := h
  exact ⟨⟨stage, htask.trans ht⟩, hout.trans hat⟩

/-- No section is read into the array of a record. -/
theorem part_ne_sealed {pc : Pc} {part : Part} (h : pc.part = some part) : part ≠ .sealed := by
  rintro rfl
  cases pc <;> cases h

/-- What is ahead of a section is in the arrays of the earlier ones. -/
theorem ahead_congr {store store' : Store} (h : ∀ p, p ≠ .sealed → store' p = store p) (part : Part) :
    store'.ahead part = store.ahead part := by
  cases part <;> simp only [Store.ahead, h _ (show Part.metaLength ≠ .sealed by decide),
    h _ (show Part.metadata ≠ .sealed by decide), h _ (show Part.state ≠ .sealed by decide)]

/-- What the function is reading depends on its own reader, and not on the records. -/
theorem RawAt.congr (h : RawAt s) (hpc : s'.pc = s.pc) (htask : s'.raw.task = s.raw.task)
    (hout : s'.raw.out = s.raw.out) (hstore : ∀ p, p ≠ .sealed → s'.store p = s.store p) : RawAt s' := by
  refine ⟨fun part hp => ?_, fun hp => ?_, fun hp => ?_⟩
  · rw [hpc] at hp
    rw [ahead_congr hstore]
    exact (h.filling part hp).congr htask hout (hstore part (part_ne_sealed hp))
  · rw [hpc] at hp
    rw [ahead_congr hstore, hstore .overlay (by decide)]
    exact (h.ending hp).congr htask hout
  · rw [hpc] at hp
    rw [hstore .metaLength (by decide)]
    exact h.four hp

/-- The sections stay as they are while the records are read. -/
theorem Sectioned.congr (h : Sectioned s) (hpc : s'.pc = s.pc) (hmetadata : s'.metadata = s.metadata)
    (hsizes : s'.sizes = s.sizes) (hstore : ∀ p, p ≠ .sealed → s'.store p = s.store p) : Sectioned s' := by
  refine ⟨?_, ?_, fun hrank => ?_⟩
  · rw [hstore .metaLength (by decide), hstore .metadata (by decide)]
    exact h.prefixed
  · rw [hstore .metadata (by decide)]
    exact h.small
  · rw [hpc] at hrank
    rw [hstore .metadata (by decide), hstore .state (by decide), hstore .overlay (by decide), hmetadata, hsizes]
    exact h.parsed hrank

/-- The check of the base is about the header, its sizes and the file. -/
theorem BaseOk.congr (h : BaseOk setup s) (hheader : s'.store .header = s.store .header)
    (hsizes : s'.sizes = s.sizes) (hfile : s'.file = s.file) : BaseOk setup s' := by
  have htree : s'.headerTree = s.headerTree := by rw [State.headerTree, State.headerTree, hheader]
  have hdeclared : s'.declared = s.declared := by rw [State.declared, State.declared, hfile]
  refine ⟨?_, ?_, ?_⟩
  · rw [htree]
    exact h.base
  · rw [hheader, hsizes]
    exact h.bound
  · rw [hdeclared, hheader, hsizes]
    exact h.declared

/-- **The records move on**, and the function does not notice. -/
theorem Live.pullStep {source : Reader} {store : Store} {hashed : Bytes} {compressed : Compressed}
    {pull : Pull} {index position : Nat} {pending : Option Bytes} {opened : List (Bytes × Bytes)}
    {fed : List Bytes} (h : Live setup s) (hrank : 4 ≤ s.pc.rank)
    (hstore : ∀ p, p ≠ .sealed → store p = s.store p) (hmade : compressed ≠ .absent)
    (hopen : s.compressed ≠ .closed)
    (hsource : compressed ≠ .errored ∧ compressed ≠ .cancelled → Taking { s with source })
    (hclosed : compressed ≠ .errored ∧ compressed ≠ .cancelled → source.closed = true → s.aborted = true)
    (hpiped : compressed ≠ .errored ∧ compressed ≠ .cancelled → Piped setup
      { s with source, store, hashed, compressed, pull, index, position, pending, opened, fed }) :
    Live setup { s with source, store, hashed, compressed, pull, index, position, pending, opened, fed } := by
  have hhead : store .head = s.store .head := hstore .head (by decide)
  have hheader : store .header = s.store .header := hstore .header (by decide)
  exact
    { fresh := fun h => absurd h (show s.pc.rank ≠ 0 by omega)
      url := h.url
      opened := h.opened
      source := fun _ hs => (hsource hs).congr rfl rfl
      raw := h.raw
      early := fun h => absurd h (show ¬s.pc.rank ≤ 3 by omega)
      made := fun _ => hmade
      head := fun hr => by
        show HeadOk (store .head) (store .header)
        rw [hhead, hheader]
        exact h.head hr
      sizes := fun hr => by
        show (parseJson (store .header) >>= sizesOf) = _
        rw [hheader]
        exact h.sizes hr
      base := fun hr => (h.base hr).congr hheader rfl rfl
      sourceAt := sourceAt_of_rank hrank
      piped := fun _ hs => hpiped hs
      rawAt := h.rawAt.congr rfl rfl rfl hstore
      flow := fun hr => ⟨(h.flow hr).given, fun ht => absurd ((h.flow hr).ended ht).1 hopen⟩
      sections := fun hr => (h.sections hr).congr rfl rfl rfl hstore
      sourceOpen := fun hc hs => hclosed hs hc
      rawOpen := h.rawOpen }

/-- The bytes of a stream, in two parts. -/
theorem bytesOf_append (a b : List Item) : bytesOf (a ++ b) = bytesOf a ++ bytesOf b := List.flatMap_append

/-- A stream of chunks gives its chunks. -/
theorem bytesOf_bytes (chunks : List Bytes) : bytesOf (chunks.map .bytes) = chunks.flatten := by
  induction chunks with
  | nil => rfl
  | cons b chunks ih =>
    show b ++ bytesOf (chunks.map .bytes) = b ++ chunks.flatten
    rw [ih]

/-- Taking a chunk does not change what was given. -/
theorem Flow.onward {raw : Reader} (h : Flow setup s) (hon : s.raw.Onward raw) :
    Flow setup { s with raw } := by
  obtain ⟨got, htaken, hitems⟩ := hon.items
  refine ⟨fun ht => ?_, fun ht => h.ended (hon.tail.symm.trans ht)⟩
  have hgiven := h.given (fun e he => ht e (hon.tail.trans he))
  show raw.taken.flatten ++ bytesOf raw.stream.items = s.given.flatten
  rw [← hgiven, hitems, htaken, bytesOf_append, bytesOf_bytes, List.flatten_append, List.append_assoc]

/-- The records do not depend on what is read behind the decompressor. -/
theorem Piped.congr {pc : Pc} {raw : Reader} {store : Store} {metadata : Tree} (h : Piped setup s)
    (hstore : ∀ p, p = .head ∨ p = .header ∨ p = .sealed → store p = s.store p) :
    Piped setup { s with pc, raw, store, metadata } := by
  have hhead : store .head = s.store .head := hstore .head (.inl rfl)
  have hheader : store .header = s.store .header := hstore .header (.inr (.inl rfl))
  have hsealed : store .sealed = s.store .sealed := hstore .sealed (.inr (.inr rfl))
  refine ⟨?_, h.index, h.bound, fun k c p hk => ?_, h.fed, h.position, ?_, h.closed⟩
  · show s.hashed = store .head ++ store .header ++ _
    rw [hhead, hheader]
    exact h.hashed
  · show RecordOk setup (store .header) _ _ _ _
    rw [hheader]
    exact h.opened k c p hk
  · have hp := h.source
    unfold Pulling at hp ⊢
    dsimp only
    cases hpull : s.pull with
    | idle =>
      rw [hpull] at hp
      exact hp
    | resting =>
      rw [hpull] at hp
      exact hp
    | reading =>
      rw [hpull] at hp
      obtain ⟨hpending, ⟨hfill, hindex, hlen⟩ | hend⟩ := hp
      · exact ⟨hpending, .inl ⟨hfill.congr rfl rfl hsealed, hindex, hsealed.symm ▸ hlen⟩⟩
      · exact ⟨hpending, .inr hend⟩

/-- **The function moves on**, and the records do not notice. -/
theorem Live.rawStep (pc : Pc) {raw : Reader} {store : Store} {metadata : Tree} (h : Live setup s)
    (hrank : 4 ≤ s.pc.rank) (hpc : 4 ≤ pc.rank)
    (hstore : ∀ p, p = .head ∨ p = .header ∨ p = .sealed → store p = s.store p) (hok : raw.Ok)
    (hon : s.raw.Onward raw) (hat : RawAt { s with pc, raw, store, metadata })
    (hsections : 5 ≤ pc.rank → Sectioned { s with pc, raw, store, metadata }) :
    Live setup { s with pc, raw, store, metadata } := by
  have hhead : store .head = s.store .head := hstore .head (.inl rfl)
  have hheader : store .header = s.store .header := hstore .header (.inr (.inl rfl))
  exact
    { fresh := fun h => absurd h (show pc.rank ≠ 0 by omega)
      url := fun hf => by
        rw [show pc = .fetching from hf] at hpc
        exact absurd hpc (by decide)
      opened := fun _ => h.opened (by omega)
      source := fun _ hs => (h.source (by omega) hs).congr rfl rfl
      raw := hok
      early := fun h => absurd h (show ¬pc.rank ≤ 3 by omega)
      made := fun _ => h.made hrank
      head := fun _ => by
        show HeadOk (store .head) (store .header)
        rw [hhead, hheader]
        exact h.head (by omega)
      sizes := fun _ => by
        show (parseJson (store .header) >>= sizesOf) = _
        rw [hheader]
        exact h.sizes (by omega)
      base := fun _ => (h.base hrank).congr hheader rfl rfl
      sourceAt := sourceAt_of_rank hpc
      piped := fun _ hs => (h.piped hrank hs).congr hstore
      rawAt := hat
      flow := fun _ =>
        have hflow := (h.flow hrank).onward hon
        ⟨hflow.given, hflow.ended⟩
      sections := hsections
      sourceOpen := h.sourceOpen
      rawOpen := fun hc => h.rawOpen (hon.closed.symm.trans hc) }

/-! ## §2. The function. -/

/-- A branch of the code is a case of the invariant. -/
theorem inv_ite {c : Prop} [Decidable c] {a b : State} (ha : c → Inv setup a) (hb : ¬c → Inv setup b) :
    Inv setup (if c then a else b) := by
  split
  next h => exact ha h
  next h => exact hb h

/-- The decompressor is set up.  What the size of the file should be does not matter here. -/
theorem Live.begun {total : Nat} (h : Live setup s) (hpc : s.pc = .base) (hbase : BaseOk setup s) :
    Inv setup { s with
      pc := .metaLength
      source := { s.source with max := total }
      compressed := .readable
      raw := (Reader.new .empty s.sizes.raw).into .metaLength
      store := s.store.allocate .metaLength 4 } := by
  have hrank : s.pc.rank = 3 := by rw [hpc]; rfl
  have hearly := h.early (by omega)
  have hat := h.sourceAt
  unfold SourceAt at hat
  rw [hpc] at hat
  obtain ⟨htask, hout, hhashed⟩ := hat
  have htaking := h.source (by omega) hearly.healthy
  have hother (p : Part) (hp : p ≠ .metaLength) : s.store.allocate .metaLength 4 p = s.store p :=
    allocate_ne hp 4
  have hhead := hother .head (by decide)
  have hheader := hother .header (by decide)
  apply inv_of_live rfl
  · exact ⟨fun _ _ _ ht => idle_absurd htask ht, fun _ => show 4 ≤ 4 from Nat.le_refl 4⟩
  · refine
      { fresh := fun h => absurd h (show (4 : Nat) ≠ 0 by decide)
        url := nofun
        opened := fun _ => h.opened (by omega)
        source := fun _ _ => ⟨⟨htaking.ok.offset, htaking.ok.received, htaking.ok.taken,
          htaking.ok.waiting⟩, htaking.items⟩
        raw := (Reader.ok_new _ _).into _
        early := fun h => absurd h (show ¬4 ≤ 3 by decide)
        made := fun _ => show Compressed.readable ≠ .absent by decide
        head := fun _ => by
          show HeadOk (s.store.allocate .metaLength 4 .head) (s.store.allocate .metaLength 4 .header)
          rw [hhead, hheader]
          exact h.head (by omega)
        sizes := fun _ => by
          show (parseJson (s.store.allocate .metaLength 4 .header) >>= sizesOf) = _
          rw [hheader]
          exact h.sizes (by omega)
        base := fun _ => hbase.congr hheader rfl rfl
        sourceAt := trivial
        piped := fun _ _ => ?_
        rawAt := ⟨fun part hp => ?_, nofun, fun _ => length_allocate s.store .metaLength 4⟩
        flow := fun _ => ⟨fun _ => hearly.fed.2 ▸ rfl, nofun⟩
        sections := fun h => absurd h (show ¬5 ≤ 4 by decide)
        sourceOpen := fun hc _ => h.sourceOpen hc hearly.healthy
        rawOpen := nofun }
    · refine ⟨?_, ?_, ?_, ?_, ?_, ?_, ?_, nofun⟩
      · show s.hashed = s.store.allocate .metaLength 4 .head ++ s.store.allocate .metaLength 4 .header ++
          (s.opened.map Prod.fst).flatten
        rw [hhead, hheader, hearly.opened.1, hhashed]
        exact (List.append_nil _).symm
      · show s.index = s.opened.length
        rw [hearly.opened.1, hearly.opened.2]
        rfl
      · show s.index ≤ _
        rw [hearly.opened.2]
        exact Nat.zero_le _
      · intro k c p hk
        have hnil : s.opened[k]? = some (c, p) := hk
        rw [hearly.opened.1] at hnil
        cases hnil
      · show (s.opened.map Prod.snd).flatten = s.fed.flatten ++ (s.pending.getD []).drop s.position
        rw [hearly.opened.1, hearly.fed.1, hearly.pending.1, hearly.pending.2]
        rfl
      · show s.position ≤ _
        rw [hearly.pending.2]
        exact Nat.zero_le _
      · unfold Pulling
        dsimp only
        rw [hearly.pull]
        exact ⟨htask, hout⟩
    · cases hp
      exact filling_new rfl

/-- A decoder that fails before the first section has nothing to take back. -/
theorem inv_fail_begun {total : Nat} (htask : s.source.task = none) :
    Inv setup (({ s with
      pc := .metaLength
      source := { s.source with max := total }
      compressed := .readable
      raw := .new .empty s.sizes.raw } : State).fail cancelled) := inv_fail_idle htask

/-- The base is there, and is compared with that of the header. -/
theorem Live.onBase {failed : Option Fail} (h : Live setup s) (hpc : s.pc = .base) :
    Inv setup (s.onBase setup failed throws) := by
  have htask : s.source.task = none := by
    have hat := h.sourceAt
    unfold SourceAt at hat
    rw [hpc] at hat
    exact hat.1
  unfold State.onBase
  dsimp only
  cases failed with
  | some e => exact inv_fail_idle htask
  | none =>
    dsimp only
    refine inv_ite (fun _ => inv_fail_idle htask) fun _ => ?_
    refine inv_ite (fun _ => inv_fail_idle htask) fun hbase => ?_
    refine inv_ite (fun _ => inv_fail_idle htask) fun hbound => ?_
    rw [not_or] at hbound
    exact inv_ite (fun _ => inv_fail_begun htask) fun _ => h.begun hpc ⟨Bool.eq_true_of_not_eq_false hbase,
      Nat.le_of_not_lt hbound.1, Bool.eq_false_of_not_eq_true hbound.2⟩

/-- Only the reader of the sections goes on, so that nobody else gets its arrays. -/
theorem Owners.rawStep (pc : Pc) {raw : Reader} {store : Store} {metadata : Tree} (h : Owners s)
    (hrank : 4 ≤ s.pc.rank) (hpc : 4 ≤ pc.rank) : Owners { s with pc, raw, store, metadata } :=
  ⟨fun part pos stage ht => .inr (.inr (h.sealed (by omega) part pos stage ht)), fun _ => hpc⟩

/-- A section was read: its array is full, and the reader is idle. -/
structure Read (s : State) (raw : Reader) (part : Part) : Prop where
  ok : raw.Ok
  onward : s.raw.Onward raw
  out : raw.out = s.store.ahead part ++ s.store part

/-- What is left of a stream does not depend on who waits for it. -/
theorem Reader.Onward.onto {r r' : Reader} (h : r.Onward r') (task : Option (Job × Stage)) :
    r.Onward { r' with task } := ⟨h.closed, h.max, h.tail, h.items⟩

/-- The length of the metadata is read, and bounded before there is an array for them. -/
theorem Live.onMetaLength {raw : Reader} (h : Live setup s) (howners : Owners s) (hpc : s.pc = .metaLength)
    (hread : Read s raw .metaLength) : Inv setup (({ s with raw } : State).onMetaLength throws) := by
  have hrank : s.pc.rank = 4 := by rw [hpc]; rfl
  have hsealed := howners.sealed (by omega)
  unfold State.onMetaLength
  dsimp only
  split
  · exact inv_fail hsealed
  next hbound =>
    split
    · exact inv_fail hsealed
    · rw [not_or] at hbound
      have hother (p : Part) (hp : p ≠ .metadata) :
          s.store.allocate .metadata (number (s.store .metaLength)) p = s.store p := allocate_ne hp _
      have hfour := hother .metaLength (by decide)
      apply inv_of_live rfl (howners.rawStep .metadata (by omega) (by decide))
      refine h.rawStep .metadata (by omega) (by decide) ?_ (hread.ok.into _) (hread.onward.onto _)
        ⟨fun part hp => ?_, nofun, nofun⟩ fun _ => ⟨⟨?_, ?_⟩, ?_, fun h => absurd h (show ¬6 ≤ 5 by decide)⟩
      · rintro p (rfl | rfl | rfl) <;> exact hother _ (by decide)
      · cases hp
        exact filling_new (hread.out.trans hfour.symm)
      · exact hfour.symm ▸ h.rawAt.four hpc
      · exact (length_allocate s.store .metadata _).trans (congrArg number hfour.symm)
      · exact (length_allocate s.store .metadata _).symm ▸ Nat.le_of_not_lt hbound.1

/-- The metadata are read, and say how long the two sections behind them are. -/
theorem Live.onMetadata {raw : Reader} (h : Live setup s) (howners : Owners s) (hpc : s.pc = .metadata)
    (hread : Read s raw .metadata) : Inv setup (({ s with raw } : State).onMetadata throws) := by
  have hrank : s.pc.rank = 5 := by rw [hpc]; rfl
  have hsealed := howners.sealed (by omega)
  have hsections := h.sections (by omega)
  unfold State.onMetadata
  dsimp only
  split
  · exact inv_fail hsealed
  next metadata hmetadata =>
    split
    · exact inv_fail hsealed
    next stateLength overlayLength hlengths =>
      split
      · exact inv_fail hsealed
      · have hother (p : Part) (hs : p ≠ .state) (ho : p ≠ .overlay) :
            (s.store.allocate .state stateLength).allocate .overlay overlayLength p = s.store p := by
          rw [allocate_ne ho, allocate_ne hs]
        have hfour := hother .metaLength (by decide) (by decide)
        have hmeta := hother .metadata (by decide) (by decide)
        have hahead : s.store.ahead .state =
            ((s.store.allocate .state stateLength).allocate .overlay overlayLength).ahead .state :=
          congrArg₂ (· ++ ·) hfour.symm hmeta.symm
        have hstate : ((s.store.allocate .state stateLength).allocate .overlay overlayLength .state).length =
            stateLength := by rw [allocate_ne (by decide), length_allocate]
        have hoverlay := length_allocate (s.store.allocate .state stateLength) .overlay overlayLength
        apply inv_of_live rfl (howners.rawStep .state (by omega) (by decide))
        refine h.rawStep .state (by omega) (by decide) ?_ (hread.ok.into _) (hread.onward.onto _)
          ⟨fun part hp => ?_, nofun, nofun⟩ fun _ => ⟨⟨?_, ?_⟩, ?_, fun _ => ⟨?_, ?_⟩⟩
        · rintro p (rfl | rfl | rfl) <;> exact hother _ (by decide) (by decide)
        · cases hp
          exact filling_new (hread.out.trans hahead)
        · exact hfour.symm ▸ hsections.prefixed.1
        · exact hfour.symm ▸ hmeta.symm ▸ hsections.prefixed.2
        · exact hmeta.symm ▸ hsections.small
        · exact hmeta.symm ▸ hmetadata
        · exact hmeta.symm ▸ hstate.symm ▸ hoverlay.symm ▸ hlengths

/-- The state is read. -/
theorem Live.onState {raw : Reader} (h : Live setup s) (howners : Owners s) (hpc : s.pc = .state)
    (hread : Read s raw .state) : Inv setup ({ s with raw } : State).onState := by
  have hrank : s.pc.rank = 6 := by rw [hpc]; rfl
  have hsections := h.sections (by omega)
  apply inv_of_live rfl (howners.rawStep .overlay (by omega) (by decide))
  refine h.rawStep .overlay (by omega) (by decide) (fun _ _ => rfl) (hread.ok.into _) (hread.onward.onto _)
    ⟨fun part hp => ?_, nofun, nofun⟩
    fun _ => ⟨hsections.prefixed, hsections.small, fun _ => hsections.parsed (by omega)⟩
  cases hp
  exact filling_new hread.out

/-- The overlay is read, and only the end is left. -/
theorem Live.onOverlay {raw : Reader} (h : Live setup s) (howners : Owners s) (hpc : s.pc = .overlay)
    (hread : Read s raw .overlay) : Inv setup ({ s with raw } : State).onOverlay := by
  have hrank : s.pc.rank = 7 := by rw [hpc]; rfl
  have hsections := h.sections (by omega)
  apply inv_of_live rfl (howners.rawStep .last (by omega) (by decide))
  refine h.rawStep .last (by omega) (by decide) (fun _ _ => rfl)
    ⟨hread.ok.offset, hread.ok.received, hread.ok.taken, fun job ht => ?_⟩ (hread.onward.onto _)
    ⟨nofun, fun _ => ⟨⟨.loop, rfl⟩, hread.out⟩, nofun⟩
    fun _ => ⟨hsections.prefixed, hsections.small, fun _ => hsections.parsed (by omega)⟩
  cases (Prod.mk.inj (Option.some.inj ht)).2

/-! ## §3. The end. -/

/-- The head of the file is made of the magic and the length of the header. -/
theorem HeadOk.eq {head header : Bytes} (h : HeadOk head header) : head = MAGIC ++ u32 header.length := by
  have hfour : (slice head 8 4).length = 4 := length_slice_of_le (by rw [h.length])
  have hrest : head.drop 8 = slice head 8 4 := by
    rw [slice, List.take_of_length_le]
    rw [List.length_drop, h.length]
  have hword := leBytes_leNat (slice head 8 4)
  rw [hfour] at hword
  rw [h.size, u32, number, hword, ← hrest, ← h.magic, List.take_append_drop]

/-- The tree that a text was read as. -/
theorem parseJson_tree {b : Bytes} {v : Tree} (h : parseJson b = .ok v) : (parseBytes b).getD .null = v := by
  unfold parseJson at h
  split at h
  · cases h
  · split at h
    · cases h
    next w hw =>
      rw [hw, Option.getD_some]
      exact Except.ok.inj h

/-- **What was read is the whole file, and authentic.** -/
theorem Live.accepted {raw : Reader} (h : Live setup s) (hpc : s.pc = .last) (hchecked : s.aborted = false)
    (hok : raw.Ok) (htaken : raw.taken.flatten = s.store.ahead .overlay ++ s.store .overlay)
    (hon : s.raw.Onward raw) (hnext : s.raw.next = some (.done, raw.stream))
    (hraw : raw.received = s.sizes.raw)
    (hsource : s.source.received = expected (s.store .header).length s.sizes.packed) :
    Accepted setup s.input s.file
      { metadata := s.metadata, state := s.store .state, overlay := s.store .overlay
        stateSha256 := hex (setup.sha256 s.hashed) } := by
  have hrank : s.pc.rank = 8 := by rw [hpc]; rfl
  have hflow := h.flow (by omega)
  -- The last read has found the end, and not because the reader was closed.
  have hdone : s.raw.stream.items = [] ∧ s.raw.stream.tail = .done := by
    rcases Reader.next_cases hnext with ⟨-, -, hclosed | hdone⟩ | ⟨-, -, e, he, -⟩ | ⟨-, item, he, -⟩
    · have haborted := h.rawOpen hclosed
      rw [hchecked] at haborted
      cases haborted
    · exact hdone
    · cases he
    · cases he
  obtain ⟨hcompressed, hends⟩ := hflow.ended hdone.2
  have hhealthy : s.Healthy := by
    unfold State.Healthy
    rw [hcompressed]
    decide
  have hpiped := h.piped (by omega) hhealthy
  have htaking := h.source (by omega) hhealthy
  have hsections := h.sections (by omega)
  have hbase := h.base (by omega)
  have hhead := h.head (by omega)
  have hsizes := h.sizes (by omega)
  obtain ⟨hmetadata, hlengths⟩ := hsections.parsed (by omega)
  obtain ⟨-, hindex, hpending, hall, hitems, htail⟩ := hpiped.closed hcompressed
  obtain ⟨f, hf, -, hinput⟩ := h.opened (by omega)
  obtain ⟨hstream, hend⟩ := htaking.items f hf
  -- what was handed on is what the records hold
  have hfed : (s.opened.map Prod.snd).flatten = s.fed.flatten := by
    rw [hpiped.fed, hpending, Option.getD_none, List.drop_nil, List.append_nil]
  -- and what was given is what the function has read
  have hgiven : s.given.flatten = u32 (s.store .metadata).length ++ s.store .metadata ++ s.store .state ++
      s.store .overlay := by
    obtain ⟨got, hgot, hleft⟩ := hon.items
    have hnone : got = [] := by
      rw [hdone.1] at hleft
      exact List.map_eq_nil_iff.mp (List.append_eq_nil_iff.mp hleft.symm).1
    have hsame : raw.taken = s.raw.taken := by rw [hgot, hnone, List.append_nil]
    have hwhole := hflow.given (fun e he => by rw [hdone.2] at he; cases he)
    rw [hdone.1, ← hsame, htaken] at hwhole
    have hfour : u32 (s.store .metadata).length = s.store .metaLength := by
      rw [hsections.prefixed.2, u32, number, ← hsections.prefixed.1, leBytes_leNat]
    rw [hfour, ← hwhole]
    exact List.append_nil _
  have htotal : s.source.taken.flatten = MAGIC ++ u32 (s.store .header).length ++ s.store .header ++
      (s.opened.map Prod.fst).flatten := by rw [hall, hpiped.hashed, ← hhead.eq]
  have hlength : s.source.taken.flatten.length = expected (s.store .header).length s.sizes.packed := by
    rw [← htaking.ok.received, hsource]
  -- The four sections are as long as the header says.
  have hsum : 4 + (s.store .metadata).length + (s.store .state).length + (s.store .overlay).length = s.sizes.raw := by
    have hreceived := hok.received
    rw [htaken, hraw] at hreceived
    simp only [Store.ahead, List.length_append, hsections.prefixed.1] at hreceived
    exact hreceived.symm
  refine ⟨f, s.source.taken, ⟨s.store .header, s.sizes, s.opened, s.store .metadata⟩, hf, hinput, ?_, ?_, ?_⟩
  · rw [hitems, List.append_nil] at hstream
    rw [htail] at hend
    rw [← hstream, ← hend]
  · rw [hlength]
    have hdeclared := hbase.declared
    unfold State.declared at hdeclared
    rw [hf] at hdeclared
    exact hdeclared
  · exact
      { bytes := htotal
        length := hlength
        bound := hlength ▸ hbase.bound
        short := hhead.bound
        header := hsizes
        base := fun tree htree => by
          have hsame := hbase.base
          rw [State.headerTree, parseJson_tree htree] at hsame
          exact hsame
        count := hpiped.index.symm.trans hindex
        opened := hpiped.opened
        inflated := hfed ▸ hgiven ▸ hends
        prefixed := hsections.small
        raw := hsum
        metadata := hmetadata
        sections := hlengths
        digest := by rw [hall] }

/-- **The end**: nothing is left in the stream, so that the sections are all of it. -/
theorem Live.onEnd {raw : Reader} (h : Live setup s) (howners : Owners s) (hpc : s.pc = .last)
    (hchecked : s.aborted = false) (hok : raw.Ok) (htask : raw.task = none)
    (htaken : raw.taken.flatten = s.store.ahead .overlay ++ s.store .overlay) (hon : s.raw.Onward raw)
    (hnext : s.raw.next = some (.done, raw.stream)) :
    Inv setup (({ s with raw } : State).onEnd setup throws) := by
  have hrank : s.pc.rank = 8 := by rw [hpc]; rfl
  have hsealed := howners.sealed (by omega)
  unfold State.onEnd
  dsimp only
  split
  · exact inv_fail hsealed
  · split
    · exact inv_fail hsealed
    next hreceived =>
      rw [not_or, not_not, not_not] at hreceived
      refine ⟨⟨fun part pos stage ht => .inr (.inr (hsealed part pos stage ht)), fun ht => absurd htask ht⟩, nofun, ?_⟩
      intro d hd
      rcases hd with hd | hd
      · cases hd
        exact h.accepted hpc hchecked hok htaken hon hnext hreceived.1 hreceived.2
      · cases hd

/-! ## §4. The records. -/

/-- Nothing has changed but what `pull` is responsible for. -/
structure Aside (s s' : State) : Prop where
  pc : s'.pc = s.pc
  input : s'.input = s.input
  file : s'.file = s.file
  raw : s'.raw.task = s.raw.task
  source : ∀ part pos stage, s'.source.task = some (.into part pos, stage) →
    part = .sealed ∨ s.source.task = some (.into part pos, stage)

/-- What goes on beside the decoder takes no array. -/
theorem Owners.aside (h : Owners s) (ha : Aside s s') : Owners s' := by
  refine ⟨fun part pos stage ht => ?_, fun ht => ?_⟩
  · rw [ha.pc]
    rcases ha.source part pos stage ht with hsealed | hsame
    · exact .inr (.inr hsealed)
    · exact h.source part pos stage hsame
  · rw [ha.pc]
    exact h.raw (ha.raw ▸ ht)

/-- What goes on beside the decoder keeps the invariant, with what a running decoder needs. -/
theorem Inv.aside (h : Inv setup s) (ha : Aside s s') (hlive : s.pc.running = true → Live setup s') :
    Inv setup s' := by
  refine ⟨h.owners.aside ha, fun hrun => hlive (ha.pc ▸ hrun), fun d hd => ?_⟩
  rw [ha.pc] at hd
  rw [ha.input, ha.file]
  exact h.result d hd

/-- A pull that fails is beside the decoder. -/
theorem aside_failPull (s : State) : Aside s s.failPull := ⟨rfl, rfl, rfl, rfl, fun _ _ _ ht => .inr ht⟩

/-- A chunk that is handed to the decompressor is beside the decoder. -/
theorem aside_enqueue (s : State) (pending : Bytes) : Aside s (s.enqueue pending) := by
  unfold State.enqueue
  dsimp only
  split
  · exact aside_failPull s
  · split
    · exact ⟨rfl, rfl, rfl, rfl, fun _ _ _ ht => .inr ht⟩
    · exact ⟨rfl, rfl, rfl, rfl, fun _ _ _ ht => .inr ht⟩

/-- A pull that begins is beside the decoder. -/
theorem aside_onPull (s : State) (throws : Nat → Bool) : Aside s (s.onPull throws) := by
  unfold State.onPull
  split
  · exact aside_failPull s
  · split
    · exact aside_enqueue s _
    · split
      · exact ⟨rfl, rfl, rfl, rfl, nofun⟩
      · split
        · exact aside_failPull s
        · refine ⟨rfl, rfl, rfl, rfl, fun part pos stage ht => .inl ?_⟩
          cases ht
          rfl

/-- A pull that goes on is beside the decoder. -/
theorem aside_onPulled (s : State) (throws : Nat → Bool) : Aside s (s.onPulled throws) := by
  unfold State.onPulled
  split
  · exact aside_failPull s
  · split
    · exact aside_enqueue s _
    · exact aside_failPull s

/-- The reader has returned, and what follows. -/
theorem aside_onSealed {source : Reader} (htask : source.task = none) :
    Aside s (({ s with source } : State).onSealed setup) := by
  unfold State.onSealed
  dsimp only
  split
  · exact ⟨rfl, rfl, rfl, rfl, fun _ _ _ ht => idle_absurd htask ht⟩
  · split
    · exact ⟨rfl, rfl, rfl, rfl, fun _ _ _ ht => idle_absurd htask ht⟩
    · exact ⟨rfl, rfl, rfl, rfl, fun _ _ _ ht => idle_absurd htask ht⟩

/-- The end of the file is beside the decoder. -/
theorem aside_onSourceEnd {source : Reader} (htask : source.task = none) :
    Aside s ({ s with source } : State).onSourceEnd := by
  unfold State.onSourceEnd
  split
  · exact ⟨rfl, rfl, rfl, rfl, fun _ _ _ ht => idle_absurd htask ht⟩
  · exact ⟨rfl, rfl, rfl, rfl, fun _ _ _ ht => idle_absurd htask ht⟩

/-- **`pull` fails.**  The stream of the records is in error from here on. -/
theorem Live.failPull (h : Live setup s) (hrank : 4 ≤ s.pc.rank) (hopen : s.compressed ≠ .closed)
    (source : Reader) (hashed : Bytes) (index : Nat) :
    Live setup ({ s with source, hashed, index } : State).failPull := by
  have hmade := h.made hrank
  have hill : ¬((if s.compressed = .readable then Compressed.errored else s.compressed) ≠ .errored ∧
      (if s.compressed = .readable then Compressed.errored else s.compressed) ≠ .cancelled) := by
    revert hmade hopen
    cases s.compressed <;> decide
  refine h.pullStep hrank (fun _ _ => rfl) ?_ hopen (fun hs => absurd hs hill) (fun hs => absurd hs hill)
    fun hs => absurd hs hill
  split
  · decide
  · exact hmade

/-- A pull that does not read has hashed all that it was handed. -/
theorem Piped.idle (h : Piped setup s) (hpull : s.pull ≠ .reading) :
    s.source.task = none ∧ s.source.out = s.hashed := by
  have hp := h.source
  unfold Pulling at hp
  cases hs : s.pull with
  | reading => exact absurd hs hpull
  | idle =>
    rw [hs] at hp
    exact hp
  | resting =>
    rw [hs] at hp
    exact hp

/-- A stream that was not errored is healthy. -/
theorem healthy_of (h : s.compressed = .readable ∨ s.compressed = .closed) : s.Healthy := by
  unfold State.Healthy
  rcases h with h | h <;> rw [h] <;> decide

/-- As long as `pull` has something to do, the stream is not closed. -/
theorem Live.not_closed (h : Live setup s) (hrank : 4 ≤ s.pc.rank) (hbusy : s.pull ≠ .idle ∨ s.source.task ≠ none) :
    s.compressed ≠ .closed := by
  intro hclosed
  have hpiped := h.piped hrank (healthy_of (.inr hclosed))
  have hidle := (hpiped.closed hclosed).1
  rcases hbusy with hpull | htask
  · exact hpull hidle
  · exact htask (hpiped.idle (by rw [hidle]; decide)).1

/-- **A record is handed to the decompressor**, behind those before it. -/
theorem Live.enqueue {pending : Bytes} (h : Live setup s) (hrank : 4 ≤ s.pc.rank) (hopen : s.compressed ≠ .closed)
    (hpending : s.pending = some pending) (hpull : s.pull ≠ .reading) : Live setup (s.enqueue pending) := by
  unfold State.enqueue
  split
  · exact h.failPull hrank hopen s.source s.hashed s.index
  next hreadable =>
    rw [not_not] at hreadable
    have hhealthy := healthy_of (.inl hreadable)
    have hpiped := h.piped hrank hhealthy
    have hposition := hpiped.position
    have hfed := hpiped.fed
    rw [hpending, Option.getD_some] at hposition hfed
    have hnext : (s.opened.map Prod.snd).flatten =
        (s.fed ++ [slice pending s.position (min (s.position + 16384) pending.length - s.position)]).flatten ++
          pending.drop (min (s.position + 16384) pending.length) := by
      have hstop : s.position + (min (s.position + 16384) pending.length - s.position) =
          min (s.position + 16384) pending.length := by omega
      have hsplit := @slice_append_drop pending s.position
        (min (s.position + 16384) pending.length - s.position)
      rw [hstop] at hsplit
      rw [hfed, ← hsplit, List.flatten_append, List.flatten_singleton, List.append_assoc]
    dsimp only
    split
    next hall =>
      refine h.pullStep hrank (fun _ _ => rfl) (h.made hrank) hopen (fun hs => h.source (by omega) hhealthy)
        (fun _ hc => h.sourceOpen hc hhealthy) fun _ => ⟨hpiped.hashed, hpiped.index, hpiped.bound, hpiped.opened,
          ?_, Nat.zero_le _, hpiped.idle hpull, fun hc => absurd hc hopen⟩
      have hnil : pending.drop (min (s.position + 16384) pending.length) = [] := by rw [hall, List.drop_length]
      rw [hnil] at hnext
      exact hnext
    · refine h.pullStep hrank (fun _ _ => rfl) (h.made hrank) hopen (fun hs => h.source (by omega) hhealthy)
        (fun _ hc => h.sourceOpen hc hhealthy) fun _ => ⟨hpiped.hashed, hpiped.index, hpiped.bound, hpiped.opened,
          ?_, ?_, hpiped.idle hpull, fun hc => absurd hc hopen⟩
      · show _ = _ ++ (s.pending.getD []).drop _
        rw [hpending]
        exact hnext
      · show _ ≤ (s.pending.getD []).length
        rw [hpending]
        exact Nat.min_le_right _ _

/-- A pull begins with the record that is left over, or with the next one. -/
theorem Live.onPull (h : Live setup s) (hrank : 4 ≤ s.pc.rank) (hreadable : s.compressed = .readable)
    (hpull : s.pull = .idle) : Live setup (s.onPull throws) := by
  have hopen : s.compressed ≠ .closed := by rw [hreadable]; decide
  have hhealthy := healthy_of (.inl hreadable)
  have hpiped := h.piped hrank hhealthy
  have hidle := hpiped.idle (by rw [hpull]; decide)
  have htaking := h.source (by omega) hhealthy
  unfold State.onPull
  split
  · exact h.failPull hrank hopen s.source s.hashed s.index
  · split
    next pending hpending => exact h.enqueue hrank hopen hpending (by rw [hpull]; decide)
    next hnone =>
      split
      next hall =>
        refine h.pullStep hrank (fun _ _ => rfl) (h.made hrank) hopen
          (fun _ => ⟨⟨htaking.ok.offset, htaking.ok.received, htaking.ok.taken, nofun⟩, htaking.items⟩)
          (fun _ hc => h.sourceOpen hc hhealthy) fun _ => ⟨hpiped.hashed, hpiped.index, hpiped.bound,
            hpiped.opened, hpiped.fed, hpiped.position, ?_, fun hc => absurd hc hopen⟩
        exact ⟨hnone, .inr ⟨⟨⟨.loop, rfl⟩, hidle.2⟩, hall⟩⟩
      next hmore =>
        split
        · exact h.failPull hrank hopen s.source s.hashed s.index
        · have hother (p : Part) (hp : p ≠ .sealed) : s.store.allocate .sealed
              (min CHUNK (s.sizes.packed - s.index * CHUNK) + 62) p = s.store p := allocate_ne hp _
          have hhead := hother .head (by decide)
          have hheader := hother .header (by decide)
          have hbound := hpiped.bound
          refine h.pullStep hrank hother (h.made hrank) hopen (fun _ => ⟨htaking.ok.into _, htaking.items⟩)
            (fun _ hc => h.sourceOpen hc hhealthy) fun _ => ⟨?_, hpiped.index, hpiped.bound,
              ?_, hpiped.fed, hpiped.position, ?_, fun hc => absurd hc hopen⟩
          · exact hhead.symm ▸ hheader.symm ▸ hpiped.hashed
          · exact hheader.symm ▸ hpiped.opened
          · refine ⟨hnone, .inl ⟨filling_new hidle.2, ?_, length_allocate s.store .sealed _⟩⟩
            show s.index < records s.sizes.packed
            omega

/-- A pull goes on when the decompressor wants more. -/
theorem Live.onPulled (h : Live setup s) (hrank : 4 ≤ s.pc.rank) (hpull : s.pull = .resting) :
    Live setup (s.onPulled throws) := by
  have hopen := h.not_closed hrank (.inl (by rw [hpull]; decide))
  unfold State.onPulled
  split
  · exact h.failPull hrank hopen s.source s.hashed s.index
  · split
    next pending hpending => exact h.enqueue hrank hopen hpending (by rw [hpull]; decide)
    · exact h.failPull hrank hopen s.source s.hashed s.index

/-- The reader has filled the array for a record, behind what was hashed. -/
structure Received (s : State) (source : Reader) : Prop where
  ok : source.Ok
  onward : s.source.Onward source
  out : source.out = s.hashed ++ s.store .sealed
  index : s.index < records s.sizes.packed
  length : (s.store .sealed).length = recordSize s.sizes.packed s.index + 62
  pending : s.pending = none

/-- **A record is read**: it is opened under the header and its place. -/
theorem Live.onSealed {source : Reader} (h : Live setup s) (hrank : 4 ≤ s.pc.rank)
    (hopen : s.compressed ≠ .closed) (htask : source.task = none) (hread : s.Healthy → Received s source) :
    Live setup (({ s with source } : State).onSealed setup) := by
  unfold State.onSealed
  dsimp only
  split
  · exact h.failPull hrank hopen source _ _
  next plain hplain =>
    split
    · exact h.failPull hrank hopen source _ _
    next hlength =>
      rw [not_not] at hlength
      refine h.pullStep hrank (fun _ _ => rfl) (h.made hrank) hopen
        (fun hs => (h.source (by omega) hs).onward (hread hs).ok (hread hs).onward)
        (fun hs hc => h.sourceOpen ((hread hs).onward.closed.symm.trans hc) hs) fun hs => ?_
      have hgot := hread hs
      have hpiped := h.piped hrank hs
      refine ⟨?_, ?_, hgot.index, fun k c p hk => ?_, ?_, ?_, ⟨htask, hgot.out⟩, fun hc => absurd hc hopen⟩
      · show s.hashed ++ s.store .sealed = s.store .head ++ s.store .header ++
          ((s.opened ++ [(s.store .sealed, plain)]).map Prod.fst).flatten
        rw [hpiped.hashed, List.map_append, List.flatten_append]
        simp only [List.map_cons, List.map_nil, List.flatten_singleton, List.append_assoc]
      · show s.index + 1 = (s.opened ++ [(s.store .sealed, plain)]).length
        rw [hpiped.index, List.length_append, List.length_singleton]
      · have hk : (s.opened ++ [(s.store .sealed, plain)])[k]? = some (c, p) := hk
        rcases Nat.lt_or_ge k s.opened.length with hlt | hge
        · rw [List.getElem?_append_left hlt] at hk
          exact hpiped.opened k c p hk
        · rw [List.getElem?_append_right hge] at hk
          have hzero : k - s.opened.length = 0 := by
            by_contra hne
            rw [List.getElem?_singleton, if_neg hne] at hk
            cases hk
          rw [hzero] at hk
          obtain ⟨rfl, rfl⟩ := Prod.mk.inj (Option.some.inj hk)
          have hindex : k = s.index := by
            have := hpiped.index
            omega
          have hplainLength := hgot.length
          rw [hindex]
          refine ⟨hplain, hgot.length, ?_⟩
          show plain.length = recordSize s.sizes.packed s.index
          omega
      · have hfed := hpiped.fed
        have hposition := hpiped.position
        rw [hgot.pending] at hfed hposition
        have hzero : s.position = 0 := Nat.le_zero.mp hposition
        show ((s.opened ++ [(s.store .sealed, plain)]).map Prod.snd).flatten = s.fed.flatten ++ plain.drop s.position
        rw [Option.getD_none, List.drop_nil, List.append_nil] at hfed
        rw [hzero, List.drop_zero, List.map_append, List.flatten_append, hfed]
        simp only [List.map_cons, List.map_nil, List.flatten_singleton]
      · have hposition := hpiped.position
        rw [hgot.pending] at hposition
        exact Nat.le_trans hposition (Nat.zero_le _)

/-- The reader has found the end of the source, behind what was hashed. -/
structure Drained (s : State) (source : Reader) : Prop where
  ok : source.Ok
  onward : s.source.Onward source
  out : source.out = s.hashed
  taken : source.taken.flatten = s.hashed
  next : s.source.next = some (.done, source.stream)
  index : s.index = records s.sizes.packed
  pending : s.pending = none
  checked : s.aborted = false

/-- The file ends behind its last record. -/
theorem Live.onSourceEnd {source : Reader} (h : Live setup s) (hrank : 4 ≤ s.pc.rank)
    (hopen : s.compressed ≠ .closed) (htask : source.task = none) (hread : s.Healthy → Drained s source) :
    Live setup ({ s with source } : State).onSourceEnd := by
  unfold State.onSourceEnd
  split
  next hreadable =>
    have hs : s.Healthy := healthy_of (.inl hreadable)
    have hgot := hread hs
    have hpiped := h.piped hrank hs
    refine h.pullStep hrank (fun _ _ => rfl) (by decide) hopen
      (fun _ => (h.source (by omega) hs).onward hgot.ok hgot.onward)
      (fun _ hc => h.sourceOpen (hgot.onward.closed.symm.trans hc) hs) fun _ => ?_
    have hdone : s.source.stream.items = [] ∧ s.source.stream.tail = .done ∧ source.stream = s.source.stream := by
      rcases Reader.next_cases hgot.next with ⟨-, hsame, hclosed | hdone⟩ | ⟨-, -, e, he, -⟩ | ⟨-, item, he, -⟩
      · have haborted := h.sourceOpen hclosed hs
        rw [hgot.checked] at haborted
        cases haborted
      · exact ⟨hdone.1, hdone.2, hsame⟩
      · cases he
      · cases he
    exact ⟨hpiped.hashed, hpiped.index, hpiped.bound, hpiped.opened, hpiped.fed, hpiped.position,
      ⟨htask, hgot.out⟩, fun _ => ⟨rfl, hgot.index, hgot.pending, hgot.taken,
        (congrArg Stream.items hdone.2.2).trans hdone.1, (congrArg Stream.tail hdone.2.2).trans hdone.2.1⟩⟩
  · exact h.failPull hrank hopen source s.hashed s.index

end Steps

end My98.Web.StateFormat
