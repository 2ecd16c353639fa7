/-
  My98.Web.StateDecoder — what `decodeState` accepts.

  A file that is accepted was read to its last byte, with nothing behind it; each of its records was
  opened, in order, under the header and its position; the decompressor had the plaintexts, all of
  them, and has given what the header says; and the digest is that of the whole file.

    • `perform_cases`     — what becomes of a turn of a reader;
    • `inv_step`          — every event keeps the invariant;
    • `decoded_authentic` — **every run**.
-/
import Mathlib
import My98.Web.StatePipe

namespace My98.Web.StateFormat

open My98.Lib My98.Lib.JsonText My98.Torrent.DescriptorText My98.Torrent.Formats My98.Web.LoadProfiles

section Steps

variable {setup : Setup} {s s' : State} {throws : Nat → Bool}

/-! ## §1. Turns. -/

/-- A part of a method of the reader, up to its next `await`. -/
structure Method (turn : Reader → Store → Bool → Option Outcome) : Prop where
  turned : ∀ {r : Reader} {store : Store} {refused : Bool} {base : Bytes} {job : Job} {stage : Stage}
    {outcome : Outcome}, r.Ok → r.At store base → r.task = some (job, stage) →
    turn r store refused = some outcome → Turned r store refused base job outcome
  keeps : ∀ {r : Reader} {store : Store} {refused : Bool} {job : Job} {stage : Stage} {outcome : Outcome},
    r.task = some (job, stage) → turn r store refused = some outcome → outcome.Keeps store job

/-- A turn is a method of a reader. -/
theorem method_turn : Method Reader.turn := ⟨Reader.turn_turned, Reader.turn_keeps⟩

/-- So is an answer. -/
theorem method_answer : Method Reader.answer := ⟨Reader.answer_turned, Reader.answer_keeps⟩

/-- So is what is left of a chunk. -/
theorem method_rest : Method Reader.rest := ⟨Reader.rest_turned, Reader.rest_keeps⟩

/-- What becomes of a turn. -/
theorem perform_cases {side : Side} {turn : Reader → Store → Bool → Option Outcome}
    (h : s.perform setup side throws turn = some s') :
    ∃ job stage, (s.reader side).task = some (job, stage) ∧
      ((∃ r store, turn (s.reader side) s.store (s.refused (throws 0)) = some (.goes r store) ∧
          s' = { s.setReader side r with store }) ∨
        (∃ r, turn (s.reader side) s.store (s.refused (throws 0)) = some (.returns r) ∧
          s' = (s.setReader side r).returned setup side job throws) ∨
        ∃ r e, turn (s.reader side) s.store (s.refused (throws 0)) = some (.throws r e) ∧
          s' = (s.setReader side r).thrown side job e) := by
  unfold State.perform at h
  split at h
  next job stage outcome htask hturn =>
    refine ⟨job, stage, htask, ?_⟩
    obtain rfl := Option.some.inj h
    cases outcome with
    | goes r store => exact .inl ⟨r, store, hturn, rfl⟩
    | returns r => exact .inr (.inl ⟨r, hturn, rfl⟩)
    | throws r e => exact .inr (.inr ⟨r, e, hturn, rfl⟩)
  · cases h

section Turned

variable {r r' : Reader} {store store' : Store} {refused : Bool} {base : Bytes} {part : Part} {pos : Nat}

/-- A reader that goes on fills its part. -/
theorem Turned.filling (h : Turned r store refused base (.into part pos) (.goes r' store')) :
    r.Onward r' ∧ store.Near store' (.into part pos) ∧ r'.Ok ∧ Filling r' store' part base := by
  cases h with
  | @goes _ _ job' stage hon hnear htask hjob hok hat =>
    cases job' with
    | finish => cases hjob
    | into part' pos' =>
      obtain rfl := Option.some.inj hjob
      exact ⟨hon, hnear, hok, ⟨pos', stage, htask⟩, hat⟩

/-- A reader that looks for the end goes on. -/
theorem Turned.ending (h : Turned r store refused base .finish (.goes r' store')) :
    r.Onward r' ∧ store.Near store' .finish ∧ r'.Ok ∧ Ending r' base := by
  cases h with
  | @goes _ _ job' stage hon hnear htask hjob hok hat =>
    cases job' with
    | into part' pos' => cases hjob
    | finish =>
      unfold Reader.At at hat
      rw [htask] at hat
      exact ⟨hon, hnear, hok, ⟨stage, htask⟩, hat⟩

/-- A reader that returns has filled its part. -/
theorem Turned.full (h : Turned r store refused base (.into part pos) (.returns r')) :
    r.Onward r' ∧ r'.task = none ∧ r'.Ok ∧ r'.out = base ++ store part := by
  cases h with
  | filled hjob hon htask hok hout =>
    cases hjob
    exact ⟨hon, htask, hok, hout⟩
  | ended hjob => cases hjob

/-- A reader that finds the end has taken all there was. -/
theorem Turned.over (h : Turned r store refused base .finish (.returns r')) :
    refused = false ∧ r.Onward r' ∧ r'.task = none ∧ r'.Ok ∧ r'.out = base ∧ r'.taken.flatten = base ∧
      r.next = some (.done, r'.stream) := by
  cases h with
  | filled hjob => cases hjob
  | ended hjob hchecked hon htask hok hout htaken hnext =>
    exact ⟨hchecked, hon, htask, hok, hout, htaken, hnext⟩

end Turned

variable {turn : Reader → Store → Bool → Option Outcome}

/-- The reader of the source goes on with what it is reading for the function. -/
theorem Live.ahead {r : Reader} {store : Store} (h : Live setup s) (howners : Owners s)
    (hrank : s.pc.rank = 1 ∨ s.pc.rank = 2) (hok : r.Ok) (hon : s.source.Onward r)
    (hhead : 2 ≤ s.pc.rank → HeadOk (store .head) (store .header))
    (htask : ∀ part pos stage, r.task = some (.into part pos, stage) →
      part = .head ∧ s.pc.rank = 1 ∨ part = .header ∧ s.pc.rank = 2 ∨ part = .sealed)
    (hat : SourceAt { s with source := r, store }) : Inv setup { s with source := r, store } := by
  have hearly := h.early (by omega)
  have htaking := h.source (by omega) hearly.healthy
  have hrun : s.pc.running = true := running_of_rank (by omega)
  refine inv_of_live hrun ?_ ?_
  · exact ⟨htask, howners.raw⟩
  · exact live_of_early (show 1 ≤ s.pc.rank ∧ s.pc.rank ≤ 3 by omega)
      ⟨hearly.compressed, hearly.pull, hearly.opened, hearly.pending, hearly.fed⟩ (h.opened (by omega))
      ((htaking.onward hok hon).congr rfl rfl) h.raw hhead
      (fun h => absurd h (show ¬3 ≤ s.pc.rank by omega)) hat
      (fun hc => h.sourceOpen (hon.closed.symm.trans hc) hearly.healthy) h.rawOpen

/-- The first twelve bytes. -/
theorem Inv.head {pos : Nat} {stage : Stage} (h : Inv setup s) (hm : Method turn)
    (ht : s.source.task = some (.into .head pos, stage)) (hp : s.perform setup .source throws turn = some s') :
    Inv setup s' := by
  have hrank : s.pc.rank = 1 := by
    rcases h.owners.source _ _ _ ht with ⟨-, hr⟩ | ⟨hpart, -⟩ | hpart
    · exact hr
    · cases hpart
    · cases hpart
  have hpc : s.pc = .head := by
    revert hrank
    cases s.pc <;> intro hrank <;> first | rfl | cases hrank
  have hlive := h.live (by rw [hpc]; rfl)
  have hok := (hlive.source (by omega) (hlive.early (by omega)).healthy).ok
  obtain ⟨hfilling, hlength⟩ : Filling s.source s.store .head [] ∧ (s.store .head).length = 12 := by
    have hat := hlive.sourceAt
    unfold SourceAt at hat
    rw [hpc] at hat
    exact hat
  obtain ⟨job, stage', ht', hcases⟩ := perform_cases hp
  obtain ⟨rfl, rfl⟩ := Prod.mk.inj (Option.some.inj (ht'.symm.trans ht))
  rcases hcases with ⟨r, store, hturn, rfl⟩ | ⟨r, hturn, rfl⟩ | ⟨r, e, hturn, rfl⟩
  · obtain ⟨hon, hnear, hok', hfilling'⟩ := (hm.turned hok hfilling.2 ht hturn).filling
    refine hlive.ahead h.owners (.inl hrank) hok' hon (fun h => absurd h (by omega)) (fun part pos stage ht => ?_) ?_
    · obtain ⟨⟨_, _, htask⟩, -⟩ := hfilling'
      cases htask.symm.trans ht
      exact .inl ⟨rfl, hrank⟩
    · unfold SourceAt
      dsimp only
      rw [hpc]
      exact ⟨hfilling', (hnear.length .head).trans hlength⟩
  · obtain ⟨hon, htask, hok', hout⟩ := (hm.turned hok hfilling.2 ht hturn).full
    exact hlive.onHead hpc hok' hon htask hout h.owners
  · exact inv_fail_idle (hm.keeps ht hturn)

/-- The header of the file. -/
theorem Inv.header {pos : Nat} {stage : Stage} (h : Inv setup s) (hm : Method turn)
    (ht : s.source.task = some (.into .header pos, stage)) (hp : s.perform setup .source throws turn = some s') :
    Inv setup s' := by
  have hrank : s.pc.rank = 2 := by
    rcases h.owners.source _ _ _ ht with ⟨hpart, -⟩ | ⟨-, hr⟩ | hpart
    · cases hpart
    · exact hr
    · cases hpart
  have hpc : s.pc = .header := by
    revert hrank
    cases s.pc <;> intro hrank <;> first | rfl | cases hrank
  have hlive := h.live (by rw [hpc]; rfl)
  have hok := (hlive.source (by omega) (hlive.early (by omega)).healthy).ok
  have hfilling : Filling s.source s.store .header (s.store .head) := by
    have hat := hlive.sourceAt
    unfold SourceAt at hat
    rw [hpc] at hat
    exact hat
  obtain ⟨job, stage', ht', hcases⟩ := perform_cases hp
  obtain ⟨rfl, rfl⟩ := Prod.mk.inj (Option.some.inj (ht'.symm.trans ht))
  rcases hcases with ⟨r, store, hturn, rfl⟩ | ⟨r, hturn, rfl⟩ | ⟨r, e, hturn, rfl⟩
  · obtain ⟨hon, hnear, hok', hfilling'⟩ := (hm.turned hok hfilling.2 ht hturn).filling
    have hhead : store .head = s.store .head := hnear.others .head (fun h => by cases h)
    have hheader := hnear.length .header
    refine hlive.ahead h.owners (.inr hrank) hok' hon (fun _ => ?_) (fun part pos stage ht => ?_) ?_
    · have hwas := hlive.head (by omega)
      rw [hhead]
      exact ⟨hwas.length, hwas.magic, hheader.trans hwas.size, by rw [hheader]; exact hwas.bound⟩
    · obtain ⟨⟨_, _, htask⟩, -⟩ := hfilling'
      cases htask.symm.trans ht
      exact .inr (.inl ⟨rfl, hrank⟩)
    · unfold SourceAt
      dsimp only
      rw [hpc]
      exact hhead.symm ▸ hfilling'
  · obtain ⟨hon, htask, hok', hout⟩ := (hm.turned hok hfilling.2 ht hturn).full
    exact hlive.onHeader hpc hok' hon htask hout h.owners
  · exact inv_fail_idle (hm.keeps ht hturn)

/-- Nobody else reads the source once the function has its header. -/
theorem Live.rank_of_task {job : Job} {stage : Stage} (h : Live setup s)
    (ht : s.source.task = some (job, stage)) (hhead : job.part ≠ some .head) (hheader : job.part ≠ some .header) :
    4 ≤ s.pc.rank := by
  by_contra hlow
  have hat := h.sourceAt
  have hfresh := h.fresh
  unfold SourceAt at hat
  have hidle : s.pc.rank = 0 → s.source.task = none := fun hr => by
    rw [(hfresh hr).source]
    rfl
  cases hpc : s.pc with
  | head =>
    rw [hpc] at hat
    obtain ⟨⟨⟨pos, stage', htask⟩, -⟩, -⟩ := hat
    cases ht.symm.trans htask
    exact hhead rfl
  | header =>
    rw [hpc] at hat
    obtain ⟨⟨pos, stage', htask⟩, -⟩ := hat
    cases ht.symm.trans htask
    exact hheader rfl
  | base =>
    rw [hpc] at hat
    exact idle_absurd hat.1 ht
  | entry => exact idle_absurd (hidle (by rw [hpc]; rfl)) ht
  | fetching => exact idle_absurd (hidle (by rw [hpc]; rfl)) ht
  | closing result => exact idle_absurd (hidle (by rw [hpc]; rfl)) ht
  | settled result => exact idle_absurd (hidle (by rw [hpc]; rfl)) ht
  | metaLength => exact hlow (by rw [hpc]; decide)
  | metadata => exact hlow (by rw [hpc]; decide)
  | state => exact hlow (by rw [hpc]; decide)
  | overlay => exact hlow (by rw [hpc]; decide)
  | last => exact hlow (by rw [hpc]; decide)

/-- The records: what is going on with the source for `pull`. -/
theorem Live.pulling {job : Job} {stage : Stage} (h : Live setup s) (hrank : 4 ≤ s.pc.rank) (hs : s.Healthy)
    (ht : s.source.task = some (job, stage)) : s.pull = .reading ∧ s.pending = none ∧
      (Filling s.source s.store .sealed s.hashed ∧ s.index < records s.sizes.packed ∧
          (s.store .sealed).length = recordSize s.sizes.packed s.index + 62 ∨
        Ending s.source s.hashed ∧ s.index = records s.sizes.packed) := by
  have hp := (h.piped hrank hs).source
  unfold Pulling at hp
  cases hpull : s.pull with
  | idle =>
    rw [hpull] at hp
    exact idle_absurd hp.1 ht
  | resting =>
    rw [hpull] at hp
    exact idle_absurd hp.1 ht
  | reading =>
    rw [hpull] at hp
    exact ⟨rfl, hp⟩

/-- A reader within a record goes on. -/
theorem Live.recordGoes {job : Job} {stage : Stage} {r : Reader} {store : Store} (h : Live setup s)
    (hm : Method turn) (hrank : 4 ≤ s.pc.rank) (ht : s.source.task = some (job, stage))
    (hothers : ∀ p, p ≠ .sealed → store p = s.store p)
    (hturn : turn s.source s.store (s.refused (throws 0)) = some (.goes r store)) :
    Live setup { s with source := r, store } := by
  have hopen := h.not_closed hrank (.inr (by rw [ht]; nofun))
  have hgoes (hs : s.Healthy) : s.source.Onward r ∧ r.Ok ∧ s.pending = none ∧
      (Filling r store .sealed s.hashed ∧ s.index < records s.sizes.packed ∧
          (store .sealed).length = recordSize s.sizes.packed s.index + 62 ∨
        Ending r s.hashed ∧ s.index = records s.sizes.packed) := by
    have hok := (h.source (by omega) hs).ok
    obtain ⟨-, hpending, ⟨⟨⟨pos, stage', htask⟩, hat⟩, hindex, hlength⟩ | ⟨⟨⟨stage', htask⟩, hout⟩, hindex⟩⟩ :=
      h.pulling hrank hs ht
    · obtain ⟨hon, hnear, hok', hfilling⟩ := (hm.turned hok hat htask hturn).filling
      exact ⟨hon, hok', hpending, .inl ⟨hfilling, hindex, (hnear.length .sealed).trans hlength⟩⟩
    · have hat : s.source.At s.store s.hashed := by
        unfold Reader.At
        rw [htask]
        exact hout
      obtain ⟨hon, hnear, hok', hending⟩ := (hm.turned hok hat htask hturn).ending
      exact ⟨hon, hok', hpending, .inr ⟨hending, hindex⟩⟩
  refine h.pullStep hrank hothers (h.made hrank) hopen
    (fun hs => (h.source (by omega) hs).onward (hgoes hs).2.1 (hgoes hs).1)
    (fun hs hc => h.sourceOpen ((hgoes hs).1.closed.symm.trans hc) hs) fun hs => ?_
  have hpiped := h.piped hrank hs
  refine ⟨?_, hpiped.index, hpiped.bound, ?_, hpiped.fed, hpiped.position, ?_, fun hc => absurd hc hopen⟩
  · show s.hashed = store .head ++ store .header ++ (s.opened.map Prod.fst).flatten
    rw [hothers .head (by decide), hothers .header (by decide)]
    exact hpiped.hashed
  · intro k c p hk
    show RecordOk setup (store .header) s.sizes.packed k c p
    rw [hothers .header (by decide)]
    exact hpiped.opened k c p hk
  · unfold Pulling
    dsimp only
    rw [(h.pulling hrank hs ht).1]
    exact (hgoes hs).2.2

/-- Whatever comes of it, the function does not notice. -/
theorem Owners.record_aside {job : Job} {stage : Stage} (h : Owners s) (hm : Method turn)
    (ht : s.source.task = some (job, stage)) (hhead : job.part ≠ some .head) (hheader : job.part ≠ some .header)
    (hp : s.perform setup .source throws turn = some s') : Aside s s' := by
  have hpart (part : Part) (pos : Nat) (hjob : job = .into part pos) : part = .sealed := by
    rcases h.source part pos stage (hjob ▸ ht) with ⟨hpart, -⟩ | ⟨hpart, -⟩ | hpart
    · rw [hjob, hpart] at hhead
      exact absurd rfl hhead
    · rw [hjob, hpart] at hheader
      exact absurd rfl hheader
    · exact hpart
  obtain ⟨job', stage', ht', hcases⟩ := perform_cases hp
  obtain ⟨rfl, rfl⟩ := Prod.mk.inj (Option.some.inj (ht'.symm.trans ht))
  rcases hcases with ⟨r, store, hturn, rfl⟩ | ⟨r, hturn, rfl⟩ | ⟨r, e, hturn, rfl⟩
  · obtain ⟨⟨next, stage₂, htask, hjob⟩, -⟩ := hm.keeps ht hturn
    refine ⟨rfl, rfl, rfl, rfl, fun part pos stage ht => .inl ?_⟩
    cases htask.symm.trans ht
    cases hj : job' with
    | finish =>
      rw [hj] at hjob
      cases hjob
    | into part' pos' =>
      rw [hj] at hjob
      obtain rfl := Option.some.inj hjob
      exact hpart _ _ hj
  · have htask : r.task = none := hm.keeps ht hturn
    cases job' with
    | into part pos =>
      obtain rfl := hpart part pos rfl
      exact aside_onSealed htask
    | finish => exact aside_onSourceEnd htask
  · have htask : r.task = none := hm.keeps ht hturn
    cases job' with
    | into part pos =>
      obtain rfl := hpart part pos rfl
      exact ⟨rfl, rfl, rfl, rfl, fun _ _ _ ht => idle_absurd htask ht⟩
    | finish => exact ⟨rfl, rfl, rfl, rfl, fun _ _ _ ht => idle_absurd htask ht⟩

/-- The records keep the invariant while the function runs. -/
theorem Live.record {job : Job} {stage : Stage} (h : Live setup s) (howners : Owners s) (hm : Method turn)
    (hrank : 4 ≤ s.pc.rank) (ht : s.source.task = some (job, stage))
    (hp : s.perform setup .source throws turn = some s') : Live setup s' := by
  have hopen := h.not_closed hrank (.inr (by rw [ht]; nofun))
  obtain ⟨job', stage', ht', hcases⟩ := perform_cases hp
  obtain ⟨rfl, rfl⟩ := Prod.mk.inj (Option.some.inj (ht'.symm.trans ht))
  rcases hcases with ⟨r, store, hturn, rfl⟩ | ⟨r, hturn, rfl⟩ | ⟨r, e, hturn, rfl⟩
  · obtain ⟨-, hothers⟩ := hm.keeps ht hturn
    refine h.recordGoes hm hrank ht (fun p hp => hothers p fun hj => hp ?_) hturn
    cases hk : job' with
    | finish =>
      rw [hk] at hj
      cases hj
    | into part' pos' =>
      rw [hk] at hj
      obtain rfl := Option.some.inj hj
      exact howners.sealed (by omega) _ _ _ (hk ▸ ht)
  · have htask : r.task = none := hm.keeps ht hturn
    cases job' with
    | into part pos =>
      obtain rfl := howners.sealed (by omega) part pos stage' ht
      refine h.onSealed hrank hopen htask fun hs => ?_
      obtain ⟨-, hpending, ⟨⟨-, hat⟩, hindex, hlength⟩ | ⟨⟨⟨stage', htask'⟩, -⟩, -⟩⟩ := h.pulling hrank hs ht
      · obtain ⟨hon, -, hok, hout⟩ := (hm.turned (h.source (by omega) hs).ok hat ht hturn).full
        exact ⟨hok, hon, hout, hindex, hlength, hpending⟩
      · cases htask'.symm.trans ht
    | finish =>
      refine h.onSourceEnd hrank hopen htask fun hs => ?_
      obtain ⟨-, hpending, ⟨⟨⟨pos, stage', htask'⟩, -⟩, -⟩ | ⟨⟨-, hout⟩, hindex⟩⟩ := h.pulling hrank hs ht
      · cases htask'.symm.trans ht
      · have hat : s.source.At s.store s.hashed := by
          unfold Reader.At
          rw [ht]
          exact hout
        obtain ⟨hchecked, hon, -, hok, hout', htaken, hnext⟩ :=
          (hm.turned (h.source (by omega) hs).ok hat ht hturn).over
        exact ⟨hok, hon, hout', htaken, hnext, hindex, hpending, (Bool.or_eq_false_iff.mp hchecked).1⟩
  · have hthrown : (s.setReader .source r).thrown .source job' e = ({ s with source := r } : State).failPull := by
      cases job' with
      | finish => rfl
      | into part pos =>
        obtain rfl := howners.sealed (by omega) part pos stage' ht
        rfl
    rw [hthrown]
    exact h.failPull hrank hopen r s.hashed s.index

/-- Every turn within the records keeps the invariant. -/
theorem Inv.record {job : Job} {stage : Stage} (h : Inv setup s) (hm : Method turn)
    (ht : s.source.task = some (job, stage)) (hhead : job.part ≠ some .head) (hheader : job.part ≠ some .header)
    (hp : s.perform setup .source throws turn = some s') : Inv setup s' := by
  refine h.aside (h.owners.record_aside hm ht hhead hheader hp) fun hrun => ?_
  have hlive := h.live hrun
  exact hlive.record h.owners hm (hlive.rank_of_task ht hhead hheader) ht hp

/-- The points from the length of the metadata on. -/
theorem late_cases {pc : Pc} (h : 4 ≤ pc.rank) :
    pc = .metaLength ∨ pc = .metadata ∨ pc = .state ∨ pc = .overlay ∨ pc = .last := by
  cases pc <;> simp [Pc.rank] at h ⊢

/-- The function itself: what its reader is doing. -/
theorem Live.reading {job : Job} {stage : Stage} (h : Live setup s) (hrank : 4 ≤ s.pc.rank)
    (ht : s.raw.task = some (job, stage)) :
    (∃ part pos, job = .into part pos ∧ s.pc.part = some part ∧ s.raw.At s.store (s.store.ahead part)) ∨
      job = .finish ∧ s.pc = .last ∧ s.raw.At s.store (s.store.ahead .overlay ++ s.store .overlay) := by
  cases hpart : s.pc.part with
  | some part =>
    obtain ⟨⟨pos, stage', htask⟩, hat⟩ := h.rawAt.filling part hpart
    cases htask.symm.trans ht
    exact .inl ⟨part, pos, rfl, rfl, hat⟩
  | none =>
    have hpc : s.pc = .last := by
      rcases late_cases hrank with hpc | hpc | hpc | hpc | hpc
      · rw [hpc] at hpart
        cases hpart
      · rw [hpc] at hpart
        cases hpart
      · rw [hpc] at hpart
        cases hpart
      · rw [hpc] at hpart
        cases hpart
      · exact hpc
    obtain ⟨⟨stage', htask⟩, hout⟩ := h.rawAt.ending hpc
    cases htask.symm.trans ht
    refine .inr ⟨rfl, hpc, ?_⟩
    unfold Reader.At
    rw [ht]
    exact hout

/-- What precedes a part does not depend on it. -/
theorem ahead_near {store store' : Store} {part : Part} (h : ∀ p, p ≠ part → store' p = store p) :
    store'.ahead part = store.ahead part := by
  cases part with
  | metadata => exact h _ (by decide)
  | state => exact congrArg₂ (· ++ ·) (h .metaLength (by decide)) (h .metadata (by decide))
  | overlay =>
    exact congrArg₂ (· ++ ·) (congrArg₂ (· ++ ·) (h .metaLength (by decide)) (h .metadata (by decide)))
      (h .state (by decide))
  | _ => rfl

/-- The sections stay as they were read. -/
theorem Sectioned.near {store : Store} {raw : Reader} (h : Sectioned s)
    (hlength : ∀ p, (store p).length = (s.store p).length) (hfour : store .metaLength = s.store .metaLength)
    (hmetadata : 6 ≤ s.pc.rank → store .metadata = s.store .metadata) : Sectioned { s with raw, store } := by
  refine ⟨⟨(hlength .metaLength).trans h.prefixed.1, ?_⟩, (hlength .metadata).symm ▸ h.small, fun hrank => ?_⟩
  · show (store .metadata).length = number (store .metaLength)
    rw [hlength, hfour]
    exact h.prefixed.2
  · show parseJson (store .metadata) = .ok s.metadata ∧ sectionsOf s.metadata (store .metadata).length s.sizes.raw =
      .ok ((store .state).length, (store .overlay).length)
    rw [hmetadata hrank, hlength .state, hlength .overlay]
    exact h.parsed hrank

/-- Which part is read at which point. -/
theorem part_rank {pc : Pc} {part : Part} (h : pc.part = some part) :
    (part = .metaLength ∧ pc.rank = 4) ∨ (part = .metadata ∧ pc.rank = 5) ∨ (part = .state ∧ pc.rank = 6) ∨
      (part = .overlay ∧ pc.rank = 7) := by
  cases pc <;> cases h <;> decide

/-- A reader of the sections goes on. -/
theorem Live.rawGoes {job : Job} {stage : Stage} {r : Reader} {store : Store} (h : Live setup s)
    (hm : Method turn) (hrank : 4 ≤ s.pc.rank) (ht : s.raw.task = some (job, stage))
    (hturn : turn s.raw s.store (s.refused (throws 0)) = some (.goes r store)) :
    Live setup { s with raw := r, store } := by
  rcases h.reading hrank ht with ⟨part, pos, rfl, hpart, hat⟩ | ⟨rfl, hpc, hat⟩
  · obtain ⟨hon, hnear, hok, hfilling⟩ := (hm.turned h.raw hat ht hturn).filling
    have hothers (p : Part) (hp : p ≠ part) : store p = s.store p :=
      hnear.others p fun hsame => hp (Option.some.inj hsame).symm
    have hplace := part_rank hpart
    refine h.rawStep s.pc hrank hrank (fun p hp => hothers p ?_) hok hon ⟨fun part' hp => ?_, fun hp => ?_, fun hp => ?_⟩
      fun hr => ((h.sections hr).near hnear.length (hothers _ ?_) fun hr' => hothers _ ?_)
    · rcases hplace with ⟨rfl, -⟩ | ⟨rfl, -⟩ | ⟨rfl, -⟩ | ⟨rfl, -⟩ <;> rcases hp with rfl | rfl | rfl <;> decide
    · obtain rfl := Option.some.inj (hpart.symm.trans hp)
      exact (ahead_near hothers).symm ▸ hfilling
    · rw [show s.pc = .last from hp] at hpart
      cases hpart
    · exact (hnear.length .metaLength).trans (h.rawAt.four hp)
    · rintro rfl
      rcases hplace with ⟨-, hr'⟩ | ⟨h, -⟩ | ⟨h, -⟩ | ⟨h, -⟩
      · exact absurd hr (show ¬5 ≤ s.pc.rank by omega)
      · cases h
      · cases h
      · cases h
    · rintro rfl
      rcases hplace with ⟨h, -⟩ | ⟨-, hr''⟩ | ⟨h, -⟩ | ⟨h, -⟩
      · cases h
      · omega
      · cases h
      · cases h
  · obtain ⟨hon, hnear, hok, hending⟩ := (hm.turned h.raw hat ht hturn).ending
    have hall (p : Part) : store p = s.store p := hnear.others p nofun
    obtain rfl : store = s.store := funext hall
    refine h.rawStep s.pc hrank hrank (fun _ _ => rfl) hok hon ⟨fun part' hp => ?_, fun _ => hending, fun hp => ?_⟩
      fun hr => (h.sections hr).near (fun _ => rfl) rfl fun _ => rfl
    · rw [show s.pc.part = none by rw [hpc]; rfl] at hp
      cases hp
    · cases hpc.symm.trans hp

/-- Every turn of the second reader keeps the invariant. -/
theorem Inv.raw (h : Inv setup s) (hm : Method turn) (hp : s.perform setup .raw throws turn = some s') :
    Inv setup s' := by
  obtain ⟨job, stage, ht, hcases⟩ := perform_cases hp
  have ht : s.raw.task = some (job, stage) := ht
  have hrank : 4 ≤ s.pc.rank := h.owners.raw (by rw [ht]; nofun)
  have hlive := h.live (running_of_rank (by omega))
  have hsealed := h.owners.sealed (by omega)
  rcases hcases with ⟨r, store, hturn, rfl⟩ | ⟨r, hturn, rfl⟩ | ⟨r, e, hturn, rfl⟩
  · exact inv_of_live (running_of_rank (show 1 ≤ s.pc.rank by omega)) (h.owners.rawStep s.pc hrank hrank)
      (hlive.rawGoes hm hrank ht hturn)
  · rcases hlive.reading hrank ht with ⟨part, pos, rfl, hpart, hat⟩ | ⟨rfl, hpc, hat⟩
    · obtain ⟨hon, -, hok, hout⟩ := (hm.turned hlive.raw hat ht hturn).full
      have hread : Read s r part := ⟨hok, hon, hout⟩
      revert hpart
      cases hpc : s.pc <;> intro hpart <;> cases hpart
      · exact hlive.onMetaLength h.owners hpc hread
      · exact hlive.onMetadata h.owners hpc hread
      · exact hlive.onState h.owners hpc hread
      · exact hlive.onOverlay h.owners hpc hread
    · obtain ⟨hchecked, hon, htask, hok, -, htaken, hnext⟩ := (hm.turned hlive.raw hat ht hturn).over
      exact hlive.onEnd h.owners hpc (Bool.or_eq_false_iff.mp hchecked).1 hok htask htaken hon hnext
  · exact inv_fail hsealed

/-! ## §2. Every event. -/

/-- So does every turn of either. -/
theorem Inv.turns {side : Side} (h : Inv setup s) (hm : Method turn)
    (hp : s.perform setup side throws turn = some s') : Inv setup s' := by
  cases side with
  | raw => exact h.raw hm hp
  | source =>
    obtain ⟨job, stage, ht, -⟩ := perform_cases hp
    have ht : s.source.task = some (job, stage) := ht
    by_cases hhead : job.part = some .head
    · cases job with
      | finish => cases hhead
      | into part pos =>
        obtain rfl := Option.some.inj hhead
        exact h.head hm ht hp
    · by_cases hheader : job.part = some .header
      · cases job with
        | finish => cases hheader
        | into part pos =>
          obtain rfl := Option.some.inj hheader
          exact h.header hm ht hp
      · exact h.record hm ht hhead hheader hp

/-- The decompressor was made after the base was compared. -/
theorem Live.rank_of_made (h : Live setup s) (hmade : s.compressed ≠ .absent ∨ s.pull ≠ .idle) : 4 ≤ s.pc.rank := by
  by_contra hlow
  have hearly := h.early (by omega)
  rcases hmade with hmade | hpull
  · exact hmade hearly.compressed
  · exact hpull hearly.pull

/-- What the decompressor does to its output. -/
theorem Live.inflate {stream : Stream} {given : List Bytes} (h : Live setup s) (hrank : 4 ≤ s.pc.rank)
    (hflow : Flow setup { s with raw := { s.raw with stream }, given }) :
    Live setup { s with raw := { s.raw with stream }, given } where
  fresh := fun h => absurd h (show s.pc.rank ≠ 0 by omega)
  url := h.url
  opened := h.opened
  source := fun hr hs => (h.source hr hs).congr rfl rfl
  raw := ⟨h.raw.offset, h.raw.received, h.raw.taken, h.raw.waiting⟩
  early := fun h => absurd h (show ¬s.pc.rank ≤ 3 by omega)
  made := h.made
  head := h.head
  sizes := h.sizes
  base := fun hr => (h.base hr).congr rfl rfl rfl
  sourceAt := sourceAt_of_rank hrank
  piped := fun hr hs =>
    have hpiped := h.piped hr hs
    ⟨hpiped.hashed, hpiped.index, hpiped.bound, hpiped.opened, hpiped.fed, hpiped.position, hpiped.source,
      hpiped.closed⟩
  rawAt := h.rawAt.congr rfl rfl rfl fun _ _ => rfl
  flow := fun _ => hflow
  sections := fun hr => (h.sections hr).congr rfl rfl rfl fun _ _ => rfl
  sourceOpen := h.sourceOpen
  rawOpen := h.rawOpen

/-- The output is lost. -/
theorem Inv.breakRaw (h : Inv setup s) {e : Fail} (hmade : s.compressed ≠ .absent) : Inv setup (s.breakRaw e) := by
  refine h.aside ⟨rfl, rfl, rfl, rfl, fun _ _ _ ht => .inr ht⟩ fun hrun => ?_
  have hlive := h.live hrun
  exact hlive.inflate (hlive.rank_of_made (.inl hmade)) ⟨fun hne => absurd rfl (hne e), nofun⟩

/-- A stream that is pending. -/
theorem isPending_eq {tail : Tail} (h : isPending tail = true) : tail = .pending := by
  cases tail with
  | pending => rfl
  | done => cases h
  | failed e => cases h

/-- A cancelled decompressor keeps the invariant. -/
theorem Inv.cancel (h : Inv setup s) (hreadable : s.compressed = .readable) :
    Inv setup { s.discard with compressed := .cancelled, source := s.source.close } := by
  refine h.aside ⟨rfl, rfl, rfl, rfl, fun _ _ _ ht => .inr ht⟩ fun hrun => ?_
  have hlive := h.live hrun
  have hill : ¬(Compressed.cancelled ≠ .errored ∧ Compressed.cancelled ≠ .cancelled) := by decide
  have hrank := hlive.rank_of_made (.inl (by rw [hreadable]; decide))
  exact hlive.pullStep hrank (fun _ _ => rfl) (by decide) (by rw [hreadable]; decide) (fun hs => absurd hs hill)
    (fun hs => absurd hs hill) fun hs => absurd hs hill

/-- The signal closes both readers, and nothing else happens at once. -/
theorem Live.abort (h : Live setup s) (hlistening : s.pc.rank ≠ 0) :
    Live setup { s with
      aborted := true, listening := false, source := s.source.close, raw := s.raw.close } where
  fresh := fun h => absurd h hlistening
  url := h.url
  opened := h.opened
  source := fun hr hs =>
    have htaking := h.source hr hs
    ⟨⟨htaking.ok.offset, htaking.ok.received, htaking.ok.taken, htaking.ok.waiting⟩, htaking.items⟩
  raw := ⟨h.raw.offset, h.raw.received, h.raw.taken, h.raw.waiting⟩
  early := fun hr =>
    have hearly := h.early hr
    ⟨hearly.compressed, hearly.pull, hearly.opened, hearly.pending, hearly.fed⟩
  made := h.made
  head := h.head
  sizes := h.sizes
  base := fun hr => (h.base hr).congr rfl rfl rfl
  sourceAt := h.sourceAt
  piped := fun hr hs =>
    have hpiped := h.piped hr hs
    ⟨hpiped.hashed, hpiped.index, hpiped.bound, hpiped.opened, hpiped.fed, hpiped.position, hpiped.source,
      hpiped.closed⟩
  rawAt := h.rawAt.congr rfl rfl rfl fun _ _ => rfl
  flow := fun hr => ⟨(h.flow hr).given, (h.flow hr).ended⟩
  sections := fun hr => (h.sections hr).congr rfl rfl rfl fun _ _ => rfl
  sourceOpen := fun _ _ => rfl
  rawOpen := fun _ => rfl

/-- The signal aborts where nobody listens yet. -/
theorem Live.abortEarly (h : Live setup s) : Live setup { s with aborted := true } where
  fresh := fun hr =>
    have hfresh := h.fresh hr
    ⟨⟨hfresh.early.compressed, hfresh.early.pull, hfresh.early.opened, hfresh.early.pending, hfresh.early.fed⟩,
      hfresh.listening, hfresh.source, hfresh.raw.1, hfresh.raw.2.1, fun _ => rfl⟩
  url := h.url
  opened := h.opened
  source := fun hr hs => (h.source hr hs).congr rfl rfl
  raw := h.raw
  early := fun hr =>
    have hearly := h.early hr
    ⟨hearly.compressed, hearly.pull, hearly.opened, hearly.pending, hearly.fed⟩
  made := h.made
  head := h.head
  sizes := h.sizes
  base := fun hr => (h.base hr).congr rfl rfl rfl
  sourceAt := h.sourceAt
  piped := fun hr hs =>
    have hpiped := h.piped hr hs
    ⟨hpiped.hashed, hpiped.index, hpiped.bound, hpiped.opened, hpiped.fed, hpiped.position, hpiped.source,
      hpiped.closed⟩
  rawAt := h.rawAt.congr rfl rfl rfl fun _ _ => rfl
  flow := fun hr => ⟨(h.flow hr).given, (h.flow hr).ended⟩
  sections := fun hr => (h.sections hr).congr rfl rfl rfl fun _ _ => rfl
  sourceOpen := fun _ _ => rfl
  rawOpen := fun _ => rfl

/-- **Every event keeps the invariant.** -/
theorem inv_step (h : Inv setup s) (e : Event) (hs : step setup s e = some s') : Inv setup s' := by
  unfold step at hs
  cases e with
  | enter throws =>
    dsimp only at hs
    split at hs
    next hpc =>
      obtain rfl := Option.some.inj hs
      exact (h.live (by rw [hpc]; rfl)).enter hpc
    · cases hs
  | respond response throws =>
    dsimp only at hs
    split at hs
    next hpc =>
      obtain rfl := Option.some.inj hs
      exact (h.live (by rw [hpc]; rfl)).respond hpc
    · cases hs
  -- The three methods of a reader are one argument.
  | turn side throws => exact h.turns method_turn hs
  | answer side throws => exact h.turns method_answer hs
  | rest side throws => exact h.turns method_rest hs
  | base failed throws =>
    dsimp only at hs
    split at hs
    next hpc =>
      obtain rfl := Option.some.inj hs
      exact (h.live (by rw [hpc]; rfl)).onBase hpc
    · cases hs
  | pull throws =>
    dsimp only at hs
    split at hs
    next hready =>
      obtain rfl := Option.some.inj hs
      refine h.aside (aside_onPull s throws) fun hrun => (h.live hrun).onPull ?_ hready.1 hready.2
      exact (h.live hrun).rank_of_made (.inl (by rw [hready.1]; decide))
    · cases hs
  | pulled throws =>
    dsimp only at hs
    split at hs
    next hrest =>
      obtain rfl := Option.some.inj hs
      refine h.aside (aside_onPulled s throws) fun hrun => (h.live hrun).onPulled ?_ hrest
      exact (h.live hrun).rank_of_made (.inr (by rw [hrest]; decide))
    · cases hs
  | inflate b =>
    dsimp only at hs
    split at hs
    next hready =>
      obtain rfl := Option.some.inj hs
      refine h.aside ⟨rfl, rfl, rfl, rfl, fun _ _ _ ht => .inr ht⟩ fun hrun => ?_
      have hlive := h.live hrun
      have hrank := hlive.rank_of_made (.inl hready.1)
      have htail := isPending_eq hready.2.1
      refine hlive.inflate hrank ⟨fun _ => ?_, fun ht => ?_⟩
      -- What the decompressor gives goes behind what it has given before.
      · have hgiven := (hlive.flow hrank).given (fun e he => by rw [htail] at he; cases he)
        show s.raw.taken.flatten ++ bytesOf (s.raw.stream.items ++ [.bytes b]) = (s.given ++ [b]).flatten
        rw [bytesOf_append, ← List.append_assoc, hgiven, List.flatten_append, List.flatten_singleton]
        exact congrArg _ (List.append_nil b)
      · cases htail.symm.trans ht
    · cases hs
  | inflated =>
    dsimp only at hs
    split at hs
    next hready =>
      obtain rfl := Option.some.inj hs
      refine h.aside ⟨rfl, rfl, rfl, rfl, fun _ _ _ ht => .inr ht⟩ fun hrun => ?_
      have hlive := h.live hrun
      have hrank := hlive.rank_of_made (.inl (by rw [hready.1]; decide))
      have htail := isPending_eq hready.2.1
      refine hlive.inflate hrank ⟨fun _ => (hlive.flow hrank).given fun e he => ?_, fun _ => ⟨hready.1, hready.2.2⟩⟩
      cases htail.symm.trans he
    · cases hs
  | corrupt e =>
    dsimp only at hs
    split at hs
    next hready =>
      obtain rfl := Option.some.inj hs
      exact h.breakRaw hready.1
    · cases hs
  | broken e =>
    dsimp only at hs
    split at hs
    next hready =>
      obtain rfl := Option.some.inj hs
      exact h.breakRaw (by rw [hready.1]; decide)
    · cases hs
  | cancel =>
    dsimp only at hs
    split at hs
    · obtain rfl := Option.some.inj hs
      exact h.cancel ‹s.compressed = .readable›
    · obtain rfl := Option.some.inj hs
      exact h.cancel ‹s.compressed = .readable›
    · cases hs
  | abort =>
    dsimp only at hs
    obtain rfl := Option.some.inj hs
    split
    next hlistening =>
      -- A listener is added once the source is open, so an abort before that is only noted.
      refine h.aside ⟨rfl, rfl, rfl, rfl, fun _ _ _ ht => .inr ht⟩ fun hrun => (h.live hrun).abort fun hr => ?_
      rw [((h.live hrun).fresh hr).listening] at hlistening
      cases hlistening
    · exact h.aside ⟨rfl, rfl, rfl, rfl, fun _ _ _ ht => .inr ht⟩ fun hrun => (h.live hrun).abortEarly
  | closed =>
    dsimp only at hs
    split at hs
    next result hpc =>
      obtain rfl := Option.some.inj hs
      refine ⟨⟨fun part pos stage ht => ?_, fun hraw => ?_⟩, nofun, fun d hd => ?_⟩
      -- The readers are closed by now, and the result was checked when the closing began.
      · exact .inr (.inr (h.owners.sealed (by rw [hpc]; exact ⟨nofun, nofun⟩) part pos stage ht))
      · have hr := h.owners.raw hraw
        rw [hpc] at hr
        exact absurd hr (show ¬4 ≤ 0 by decide)
      · rcases hd with hd | hd
        · cases hd
        · cases hd
          exact h.result _ (.inl hpc)
    next e hpc =>
      obtain rfl := Option.some.inj hs
      refine ⟨⟨fun part pos stage ht => ?_, fun hraw => ?_⟩, nofun, fun d hd => ?_⟩
      · exact .inr (.inr (h.owners.sealed (by rw [hpc]; exact ⟨nofun, nofun⟩) part pos stage ht))
      · have hr := h.owners.raw hraw
        rw [hpc] at hr
        exact absurd hr (show ¬4 ≤ 0 by decide)
      · rcases hd with hd | hd <;> cases hd
    · cases hs

/-! ## §3. The argument. -/

/-- Accepting a file leaves the argument. -/
theorem input_accept (s : State) (f : File) (throws : Nat → Bool) : (s.accept f throws).input = s.input := by
  unfold State.accept
  dsimp only
  split
  · rfl
  · split
    · rfl
    · split <;> rfl

/-- The argument stays what it was at the first turn. -/
theorem input_enter (s : State) (throws : Nat → Bool) : (s.enter throws).input = s.input := by
  unfold State.enter
  split
  · rfl
  · split
    · rfl
    · exact input_accept s _ throws
    · rfl

/-- So it does with an answer of the server. -/
theorem input_respond (s : State) (response : Except Fail Response) (throws : Nat → Bool) :
    (s.respond response throws).input = s.input := by
  unfold State.respond
  split
  · rfl
  · split
    · exact input_accept s _ throws
    · rfl

/-- So it does with the base. -/
theorem input_onBase (s : State) (failed : Option Fail) (throws : Nat → Bool) :
    (s.onBase setup failed throws).input = s.input := by
  unfold State.onBase
  dsimp only
  split
  · rfl
  · split
    · rfl
    · split
      · rfl
      · split
        · rfl
        · split <;> rfl

/-- So it does after a reader has returned. -/
theorem input_returned (s : State) (side : Side) (job : Job) (throws : Nat → Bool) :
    (s.returned setup side job throws).input = s.input := by
  unfold State.returned
  split
  · unfold State.onHead
    dsimp only
    split_ifs <;> rfl
  · unfold State.onHeader
    dsimp only
    split <;> rfl
  · unfold State.onSealed
    dsimp only
    split
    · rfl
    · split <;> rfl
  · unfold State.onSourceEnd
    split <;> rfl
  · unfold State.onMetaLength
    dsimp only
    split_ifs <;> rfl
  · unfold State.onMetadata
    split
    · rfl
    · split
      · rfl
      · split <;> rfl
  · rfl
  · rfl
  · unfold State.onEnd
    dsimp only
    split_ifs <;> rfl

/-- So it does after every turn. -/
theorem input_perform {side : Side} (h : s.perform setup side throws turn = some s') : s'.input = s.input := by
  obtain ⟨job, stage, -, ⟨r, store, -, rfl⟩ | ⟨r, -, rfl⟩ | ⟨r, e, -, rfl⟩⟩ := perform_cases h
  · cases side <;> rfl
  · rw [input_returned]
    cases side <;> rfl
  · unfold State.thrown
    cases side <;> split <;> rfl

/-- The argument is never changed. -/
theorem input_step (e : Event) (hs : step setup s e = some s') : s'.input = s.input := by
  unfold step at hs
  cases e with
  | enter throws =>
    dsimp only at hs
    split at hs
    · obtain rfl := Option.some.inj hs
      exact input_enter s throws
    · cases hs
  | respond response throws =>
    dsimp only at hs
    split at hs
    · obtain rfl := Option.some.inj hs
      exact input_respond s response throws
    · cases hs
  | turn side throws => exact input_perform hs
  | answer side throws => exact input_perform hs
  | rest side throws => exact input_perform hs
  | base failed throws =>
    dsimp only at hs
    split at hs
    · obtain rfl := Option.some.inj hs
      exact input_onBase s failed throws
    · cases hs
  | pull throws =>
    dsimp only at hs
    split at hs
    · obtain rfl := Option.some.inj hs
      exact (aside_onPull s throws).input
    · cases hs
  | pulled throws =>
    dsimp only at hs
    split at hs
    · obtain rfl := Option.some.inj hs
      exact (aside_onPulled s throws).input
    · cases hs
  | abort =>
    dsimp only at hs
    obtain rfl := Option.some.inj hs
    split <;> rfl
  | _ =>
    dsimp only at hs
    split at hs <;> cases hs <;> rfl

/-- The function at its start. -/
theorem inv_start (input : Input) : Inv setup (State.start input) := by
  refine inv_of_live rfl ⟨nofun, fun h => absurd rfl h⟩ ?_
  exact
    { fresh := fun _ => ⟨⟨rfl, rfl, ⟨rfl, rfl⟩, ⟨rfl, rfl⟩, ⟨rfl, rfl⟩⟩, rfl, rfl, Reader.ok_new _ _, rfl, nofun⟩
      url := nofun
      opened := fun h => absurd h (show ¬1 ≤ 0 by decide)
      source := fun h => absurd h (show ¬1 ≤ 0 by decide)
      raw := Reader.ok_new _ _
      early := fun _ => ⟨rfl, rfl, ⟨rfl, rfl⟩, ⟨rfl, rfl⟩, ⟨rfl, rfl⟩⟩
      made := fun h => absurd h (show ¬4 ≤ 0 by decide)
      head := fun h => absurd h (show ¬2 ≤ 0 by decide)
      sizes := fun h => absurd h (show ¬3 ≤ 0 by decide)
      base := fun h => absurd h (show ¬4 ≤ 0 by decide)
      sourceAt := trivial
      piped := fun h => absurd h (show ¬4 ≤ 0 by decide)
      rawAt := rawAt_of_rank (show 0 ≤ 3 by decide)
      flow := fun h => absurd h (show ¬4 ≤ 0 by decide)
      sections := fun h => absurd h (show ¬5 ≤ 0 by decide)
      sourceOpen := nofun
      rawOpen := nofun }

/-- The invariant of every run. -/
theorem inv_run {input : Input} {events : List Event}
    (hrun : run (step setup) (State.start input) events = some s) : Inv setup s ∧ s.input = input := by
  have hstep : ∀ s e s', (Inv setup s ∧ s.input = input) → step setup s e = some s' →
      Inv setup s' ∧ s'.input = input :=
    fun s e s' h hs => ⟨inv_step h.1 e hs, (input_step e hs).trans h.2⟩
  exact run_keeps hstep events (State.start input) s ⟨inv_start input, rfl⟩ hrun

end Steps

/-- **What `decodeState` accepts is authentic**, in every run: whatever the chunks of the stream, the
    order of the three parties, the checks that throw and the moment of an abort. -/
theorem decoded_authentic {setup : Setup} {input : Input} {events : List Event} {s : State} {d : Decoded}
    (hrun : run (step setup) (State.start input) events = some s) (hsettled : s.pc = .settled (.ok d)) :
    Accepted setup input s.file d := by
  obtain ⟨hinv, hinput⟩ := inv_run hrun
  exact hinput ▸ hinv.result d (.inr hsettled)

/-! ## §4. An accepted file. -/

/-- Records are in the clear, and not compressed. -/
def demoSetup : Setup where
  vault := { base := [], openState := fun _ sealed => .ok (sealed.drop 62) }
  sha256 := fun b => [UInt8.ofNat b.length]
  inflater :=
    { emits := fun fed given next => (given ++ next).isPrefixOf fed
      ends := fun fed given => decide (fed = given)
      fails := fun _ _ _ => false }

def asciiBytes (text : String) : Bytes := text.toList.map fun c => UInt8.ofNat c.toNat

def demoRaw : Bytes := u32 35 ++ asciiBytes "\x7b\"stateLength\":1,\"overlayLength\":0\x7d" ++ [7]

def demoHeader : Bytes := asciiBytes "\x7b\"version\":1,\"base\":[],\"raw\":40,\"packed\":40\x7d"

def demoBytes : Bytes := MAGIC ++ u32 demoHeader.length ++ demoHeader ++ List.replicate 62 0 ++ demoRaw

/-- The stream breaks off in the middle of the record. -/
def demoFile : File where
  size := .integer 158
  stream := { items := [.bytes (demoBytes.take 100), .bytes (demoBytes.drop 100)], tail := .done }
  locked := false

def quiet : Nat → Bool := fun _ => false

def demoEvents : List Event :=
  [.enter quiet, .turn .source quiet, .answer .source quiet, .turn .source quiet, .turn .source quiet,
    .turn .source quiet, .base none quiet, .turn .raw quiet, .pull quiet, .turn .source quiet,
    .turn .source quiet, .answer .source quiet, .turn .source quiet, .pulled quiet, .inflate demoRaw,
    .answer .raw quiet, .turn .raw quiet, .turn .raw quiet, .turn .raw quiet, .turn .raw quiet,
    .turn .raw quiet, .turn .raw quiet, .turn .raw quiet, .pull quiet, .turn .source quiet,
    .answer .source quiet, .inflated, .answer .raw quiet, .closed]

def Pc.accepts : Pc → Bool
  | .settled (.ok d) => decide (d.state = [7])
  | _ => false

def demoEnd : State := (run (step demoSetup) (State.start (.file demoFile)) demoEvents).getD (State.start .other)

/-- A run that ends in a state the test tells from the one put for no run has this end. -/
theorem eq_some_of_test {o : Option State} {s other : State} (hs : s = o.getD other) (test : State → Bool)
    (hother : test other = false) (h : test s = true) : o = some s := by
  cases o with
  | some s' => rw [hs, Option.getD_some]
  | none =>
    rw [hs, Option.getD_none, hother] at h
    cases h

/-- A run that passes the test has settled with the state. -/
theorem Pc.accepts_ok {pc : Pc} (h : pc.accepts = true) : ∃ d : Decoded, pc = .settled (.ok d) ∧ d.state = [7] := by
  cases pc with
  | settled result =>
    cases result with
    | ok d => exact ⟨d, rfl, of_decide_eq_true h⟩
    | error e => cases h
  | _ => cases h

/-- A file whose stream breaks off within a record: what is returned is authentic. -/
theorem demo_decoded_authentic : ∃ d : Decoded, demoEnd.pc = .settled (.ok d) ∧ d.state = [7] ∧
    Accepted demoSetup (.file demoFile) demoEnd.file d := by
  have haccepts : demoEnd.pc.accepts = true := by decide +kernel
  have hrun : run (step demoSetup) (State.start (.file demoFile)) demoEvents = some demoEnd :=
    eq_some_of_test rfl (fun s => s.pc.accepts) rfl haccepts
  obtain ⟨d, hd, hstate⟩ := Pc.accepts_ok haccepts
  exact ⟨d, hd, hstate, decoded_authentic hrun hd⟩

end My98.Web.StateFormat
