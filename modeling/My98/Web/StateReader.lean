/-
  My98.Web.StateReader — what a turn of a `StateReader` can come to.

  A reader holds one chunk of its stream.  What it has taken is what it has copied out and the rest of
  that chunk, in order; so a method that fills an array puts the next bytes of the stream into it, however
  the stream is cut, and `end` returns only where the stream has nothing more.

    • `Reader.Ok`, `Reader.At` — where a reader stands;
    • `Turned`                 — all that a turn can come to;
    • `Outcome.Keeps`          — what holds even of a reader whose stream was lost.
-/
import Mathlib
import My98.Web.StateFormat

namespace My98.Web.StateFormat

open My98.Lib My98.Lib.JsonText My98.Torrent.DescriptorText My98.Torrent.Formats My98.Web.LoadProfiles

/-! ## §1. A turn of a reader. -/

/-- What came out of the stream is what was copied and what is left of the chunk. -/
structure Reader.Ok (r : Reader) : Prop where
  offset : r.offset ≤ r.chunk.length
  received : r.received = r.taken.flatten.length
  taken : r.taken.flatten = r.out ++ r.chunk.drop r.offset
  waiting : ∀ job, r.task = some (job, .waiting) → r.offset = r.chunk.length

theorem Reader.ok_new (stream : Stream) (max : Nat) : (Reader.new stream max).Ok := by
  refine ⟨Nat.le_refl _, rfl, rfl, fun job h => ?_⟩
  cases h

/-- The reader stands behind `base`, and behind what it has copied for the method under way.  It waits
    for a chunk only as long as there is room in the array. -/
def Reader.At (r : Reader) (store : Store) (base : Bytes) : Prop :=
  match r.task with
  | some (.into part pos, stage) => pos ≤ (store part).length ∧
      (stage = .waiting → pos < (store part).length) ∧ r.out = base ++ (store part).take pos
  | _ => r.out = base

/-- The array that a method fills. -/
def Job.part : Job → Option Part
  | .into part _ => some part
  | .finish => none

/-- The reader has taken what the stream gave, and nothing else. -/
structure Reader.Onward (r r' : Reader) : Prop where
  closed : r'.closed = r.closed
  max : r'.max = r.max
  tail : r'.stream.tail = r.stream.tail
  items : ∃ got : List Bytes, r'.taken = r.taken ++ got ∧ r.stream.items = got.map .bytes ++ r'.stream.items

/-- Only the array of the method has changed, and not its length. -/
structure Store.Near (store store' : Store) (job : Job) : Prop where
  others : ∀ p, job.part ≠ some p → store' p = store p
  length : ∀ p, (store' p).length = (store p).length

/-- Why a method throws. -/
inductive Reader.Fault (r : Reader) (store : Store) (job : Job) : Prop
  | failed {e : Fail} {stream : Stream} (h : r.next = some (.failed e, stream))
  | short {stream : Stream} {part : Part} {pos : Nat} (h : r.next = some (.done, stream))
      (hjob : job = .into part pos) (hpos : pos < (store part).length) (hall : r.taken.flatten = r.out)
  | other {stream : Stream} (h : r.next = some (.value .other, stream))
  | long {b : Bytes} {stream : Stream} (h : r.next = some (.value (.bytes b), stream))
      (hmax : r.max < r.received + b.length)
  /-- There is more than was asked for. -/
  | rest (hjob : job = .finish) (h : r.offset < r.chunk.length)
  | more {b : Bytes} {stream : Stream} (h : r.next = some (.value (.bytes b), stream)) (hb : b ≠ [])
      (hjob : job = .finish)

/-- **All that a turn can come to.** -/
inductive Turned (r : Reader) (store : Store) (refused : Bool) (base : Bytes) (job : Job) : Outcome → Prop
  | goes {r' : Reader} {store' : Store} {job' : Job} {stage : Stage} (hon : r.Onward r')
      (hnear : store.Near store' job) (htask : r'.task = some (job', stage)) (hjob : job'.part = job.part)
      (hok : r'.Ok) (hat : r'.At store' base) : Turned r store refused base job (.goes r' store')
  | filled {r' : Reader} {part : Part} {pos : Nat} (hjob : job = .into part pos) (hon : r.Onward r')
      (htask : r'.task = none) (hok : r'.Ok) (hout : r'.out = base ++ store part) :
      Turned r store refused base job (.returns r')
  | ended {r' : Reader} (hjob : job = .finish) (hchecked : refused = false) (hon : r.Onward r')
      (htask : r'.task = none) (hok : r'.Ok) (hout : r'.out = base) (htaken : r'.taken.flatten = base)
      (hnext : r.next = some (.done, r'.stream)) : Turned r store refused base job (.returns r')
  | thrown {r' : Reader} {e : Fail} (hclosed : r'.closed = r.closed) (htask : r'.task = none)
      (hreason : refused = true ∨ r.Fault store job) : Turned r store refused base job (.throws r' e)

theorem Reader.Onward.same {r r' : Reader} (hclosed : r'.closed = r.closed) (hmax : r'.max = r.max)
    (hstream : r'.stream = r.stream) (htaken : r'.taken = r.taken) : r.Onward r' := by
  refine ⟨hclosed, hmax, by rw [hstream], [], ?_, ?_⟩
  · rw [htaken, List.append_nil]
  · rw [hstream]
    rfl

theorem Store.near_refl (store : Store) (job : Job) : store.Near store job :=
  ⟨fun _ _ => rfl, fun _ => rfl⟩

/-- What `splice` has written stands behind what was there. -/
theorem take_splice {b new : Bytes} {pos n : Nat} (hn : new.length = n) (h : pos + n ≤ b.length) :
    (splice b pos new).take (pos + n) = b.take pos ++ new := by
  subst hn
  have hlen : (b.take pos).length = pos := by rw [List.length_take, Nat.min_eq_left (by omega)]
  rw [splice, List.take_append_of_le_length (by rw [List.length_append, hlen]), List.take_of_length_le]
  rw [List.length_append, hlen]

theorem slice_append_drop {b : Bytes} {off n : Nat} : slice b off n ++ b.drop (off + n) = b.drop off := by
  rw [slice, ← List.drop_drop, List.take_append_drop]

/-- Copying. -/
theorem Reader.copy_turned {r before : Reader} {store : Store} {refused : Bool} {base : Bytes} {part : Part}
    {pos pos₀ : Nat} (hon : before.Onward r) (hoff : r.offset ≤ r.chunk.length)
    (hreceived : r.received = r.taken.flatten.length)
    (htaken : r.taken.flatten = r.out ++ r.chunk.drop r.offset) (hpos : pos ≤ (store part).length)
    (hout : r.out = base ++ (store part).take pos) :
    Turned before store refused base (.into part pos₀) (r.copy store part pos) := by
  have hcount : min ((store part).length - pos) (r.chunk.length - r.offset) ≤ (store part).length - pos :=
    Nat.min_le_left _ _
  have hpiece : (slice r.chunk r.offset (min ((store part).length - pos) (r.chunk.length - r.offset))).length
      = min ((store part).length - pos) (r.chunk.length - r.offset) := by
    apply length_slice_of_le
    omega
  unfold Reader.copy
  dsimp only
  refine .goes ⟨hon.closed, hon.max, hon.tail, hon.items⟩ ⟨fun p hp => ?_, fun p => ?_⟩ rfl rfl ?_ ?_
  · exact Function.update_of_ne (fun h => hp (congrArg some h.symm)) _ _
  · by_cases hp : p = part
    · rw [hp, Store.put, Function.update_self, length_splice (by omega)]
    · rw [Store.put, Function.update_of_ne hp]
  · refine ⟨?_, hreceived, ?_, fun job h => ?_⟩
    · show r.offset + min _ _ ≤ r.chunk.length
      omega
    · show r.taken.flatten = (r.out ++ _) ++ r.chunk.drop (r.offset + _)
      rw [htaken, List.append_assoc, slice_append_drop]
    · have hstage := (Prod.mk.inj (Option.some.inj h)).2
      split at hstage <;> cases hstage
  · show pos + _ ≤ (Function.update store part _ part).length ∧
      (_ → pos + _ < (Function.update store part _ part).length) ∧
      _ = base ++ List.take (pos + _) (Function.update store part _ part)
    rw [Function.update_self, length_splice (by omega)]
    refine ⟨by omega, fun hstage => ?_, ?_⟩
    · split at hstage <;> cases hstage
    show r.out ++ _ = _
    rw [take_splice hpiece (by omega), hout, List.append_assoc]

section Turns

variable {r : Reader} {store : Store} {refused : Bool} {base : Bytes} {job : Job} {stage₀ : Stage}
  {outcome : Outcome}

/-- Where the reader stands does not depend on the stage. -/
theorem Reader.At.restage {r' : Reader} {s s' : Stage} (h : r.At store base) (ht : r.task = some (job, s))
    (ht' : r'.task = some (job, s')) (hout : r'.out = r.out)
    (hw : s' = .waiting → s = .waiting ∨ ∀ part pos, job = .into part pos → pos < (store part).length) :
    r'.At store base := by
  unfold Reader.At at h ⊢
  rw [ht] at h
  rw [ht', hout]
  cases job with
  | into part pos =>
    refine ⟨h.1, fun hs => ?_, h.2.2⟩
    rcases hw hs with hwas | hroom
    · exact h.2.1 hwas
    · exact hroom part pos rfl
  | finish => exact h

/-- The stage changes, and nothing else. -/
theorem Reader.turned_stage {s' : Stage} (hok : r.Ok) (hat : r.At store base)
    (ht : r.task = some (job, stage₀)) (hw : s' = .waiting → r.offset = r.chunk.length ∧
      ∀ part pos, job = .into part pos → pos < (store part).length) :
    Turned r store refused base job (.goes { r with task := some (job, s') } store) := by
  refine .goes (.same rfl rfl rfl rfl) (store.near_refl job) rfl rfl
    ⟨hok.offset, hok.received, hok.taken, fun job' h => ?_⟩ (hat.restage ht rfl rfl fun hs => .inr (hw hs).2)
  exact (hw (Prod.mk.inj (Option.some.inj h)).2).1

theorem Reader.turned_thrown {e : Fail} (h : refused = true ∨ r.Fault store job) :
    Turned r store refused base job (.throws { r with task := none } e) :=
  .thrown rfl rfl h

/-- **The head of a loop.** -/
theorem Reader.turn_turned (hok : r.Ok) (hat : r.At store base) (ht : r.task = some (job, stage₀))
    (h : r.turn store refused = some outcome) : Turned r store refused base job outcome := by
  unfold Reader.turn at h
  rw [ht] at h
  cases stage₀ with
  | waiting => cases job <;> cases h
  | resting => cases job <;> cases h
  | loop =>
    cases job with
    | into part pos =>
      obtain rfl := Option.some.inj h
      have hhere := hat
      unfold Reader.At at hhere
      rw [ht] at hhere
      obtain ⟨hpos, -, hout⟩ := hhere
      split
      next hend =>
        refine .filled rfl (.same rfl rfl rfl rfl) rfl ⟨hok.offset, hok.received, hok.taken, ?_⟩ ?_
        · intro job h
          cases h
        · rwa [List.take_of_length_le hend] at hout
      · split
        next hr => exact turned_thrown (.inl hr)
        · split
          next hempty =>
            refine turned_stage hok hat ht fun _ => ⟨hempty, fun part' pos' hjob => ?_⟩
            obtain ⟨rfl, rfl⟩ := Job.into.inj hjob
            omega
          · exact copy_turned (.same rfl rfl rfl rfl) hok.offset hok.received hok.taken hpos hout
    | finish =>
      obtain rfl := Option.some.inj h
      split
      next hr => exact turned_thrown (.inl hr)
      · split
        next hempty => exact turned_stage hok hat ht fun _ => ⟨hempty, nofun⟩
        next hmore =>
          have hoff := hok.offset
          exact turned_thrown (.inr (.rest rfl (by omega)))

theorem Reader.rest_turned (hok : r.Ok) (hat : r.At store base) (ht : r.task = some (job, stage₀))
    (h : r.rest store refused = some outcome) : Turned r store refused base job outcome := by
  unfold Reader.rest at h
  rw [ht] at h
  cases stage₀ with
  | waiting => cases h
  | loop => cases h
  | resting =>
    obtain rfl := Option.some.inj h
    split
    next hr => exact turned_thrown (.inl hr)
    · exact turned_stage hok hat ht nofun

/-- What a stream answers: it is closed, or there is a chunk, or it has ended. -/
theorem Reader.next_cases {answer : Answer} {stream : Stream} (h : r.next = some (answer, stream)) :
    (answer = .done ∧ stream = r.stream ∧ (r.closed = true ∨ r.stream.items = [] ∧ r.stream.tail = .done)) ∨
    (r.closed = false ∧ stream = r.stream ∧ ∃ e, answer = .failed e ∧ r.stream.items = [] ∧ r.stream.tail = .failed e) ∨
    (r.closed = false ∧ ∃ item, answer = .value item ∧ r.stream.items = item :: stream.items ∧
      stream.tail = r.stream.tail) := by
  unfold Reader.next at h
  split at h
  next hclosed =>
    obtain ⟨rfl, rfl⟩ := Prod.mk.inj (Option.some.inj h)
    exact .inl ⟨rfl, rfl, .inl hclosed⟩
  next hclosed =>
    have hopen := Bool.eq_false_of_not_eq_true hclosed
    cases hitems : r.stream.items with
    | cons item items =>
      rw [hitems] at h
      obtain ⟨rfl, rfl⟩ := Prod.mk.inj (Option.some.inj h)
      exact .inr (.inr ⟨hopen, item, rfl, rfl, rfl⟩)
    | nil =>
      rw [hitems] at h
      cases htail : r.stream.tail with
      | pending =>
        rw [htail] at h
        cases h
      | done =>
        rw [htail] at h
        obtain ⟨rfl, rfl⟩ := Prod.mk.inj (Option.some.inj h)
        exact .inl ⟨rfl, rfl, .inr ⟨rfl, rfl⟩⟩
      | failed e =>
        rw [htail] at h
        obtain ⟨rfl, rfl⟩ := Prod.mk.inj (Option.some.inj h)
        exact .inr (.inl ⟨hopen, rfl, e, rfl, rfl, rfl⟩)

/-- A chunk has come. -/
theorem Reader.receive_turned {b : Bytes} {stream : Stream} (hok : r.Ok) (hat : r.At store base)
    (ht : r.task = some (job, .waiting)) (hnext : r.next = some (.value (.bytes b), stream))
    (hitems : r.stream.items = .bytes b :: stream.items) (htail : stream.tail = r.stream.tail)
    (hall : r.taken.flatten = r.out) :
    Turned r store refused base job ({ r with stream }.receive store job b) := by
  have hreceived : r.received + b.length = (r.taken ++ [b]).flatten.length := by
    rw [List.flatten_append, List.length_append, hok.received, List.flatten_singleton]
  have htaken : (r.taken ++ [b]).flatten = r.out ++ b.drop 0 := by
    rw [List.flatten_append, List.flatten_singleton, hall, List.drop_zero]
  have hon : r.Onward { r with
      stream, received := r.received + b.length, taken := r.taken ++ [b], chunk := b, offset := 0 } :=
    ⟨rfl, rfl, htail, [b], rfl, hitems⟩
  unfold Reader.receive
  dsimp only
  split
  next hmax => exact .thrown rfl rfl (.inr (.long hnext hmax))
  · split
    next hb =>
      refine .goes ⟨rfl, rfl, htail, [b], rfl, hitems⟩ (store.near_refl job) rfl rfl
        ⟨Nat.zero_le _, hreceived, htaken, fun _ _ => by rw [hb]; rfl⟩ (hat.restage ht rfl rfl fun _ => .inl rfl)
    next hb =>
      unfold Reader.At at hat
      rw [ht] at hat
      cases job with
      | into part pos =>
        exact copy_turned hon (Nat.zero_le _) hreceived htaken hat.1 hat.2.2
      | finish => exact .thrown rfl rfl (.inr (.more hnext hb rfl))

/-- **An answer of the stream.** -/
theorem Reader.answer_turned (hok : r.Ok) (hat : r.At store base) (ht : r.task = some (job, stage₀))
    (h : r.answer store refused = some outcome) : Turned r store refused base job outcome := by
  unfold Reader.answer at h
  rw [ht] at h
  cases stage₀ with
  | loop => cases h
  | resting => cases h
  | waiting =>
    dsimp only at h
    cases hnext : r.next with
    | none =>
      rw [hnext] at h
      cases h
    | some got =>
      obtain ⟨answer, stream⟩ := got
      rw [hnext] at h
      obtain rfl := Option.some.inj h
      have hempty : r.chunk.drop r.offset = [] :=
        List.drop_eq_nil_of_le (Nat.le_of_eq (hok.waiting job ht).symm)
      have hall : r.taken.flatten = r.out := by rw [hok.taken, hempty, List.append_nil]
      rcases Reader.next_cases hnext with ⟨rfl, rfl, -⟩ | ⟨-, rfl, e, rfl, -, -⟩ | ⟨-, item, rfl, hitems, htail⟩
      · dsimp only
        split
        next hr => exact turned_thrown (.inl hr)
        next hr =>
          cases job with
          | into part pos =>
            unfold Reader.At at hat
            rw [ht] at hat
            exact turned_thrown (.inr (.short hnext rfl (hat.2.1 rfl) hall))
          | finish =>
            unfold Reader.At at hat
            rw [ht] at hat
            refine .ended rfl (Bool.eq_false_of_not_eq_true hr) (.same rfl rfl rfl rfl) rfl
              ⟨hok.offset, hok.received, hok.taken, fun job h => by cases h⟩ hat ?_ hnext
            exact hall.trans hat
      · exact turned_thrown (.inr (.failed hnext))
      · dsimp only
        split
        next hr => exact .thrown rfl rfl (.inl hr)
        · cases item with
          | other => exact .thrown rfl rfl (.inr (.other hnext))
          | bytes b => exact receive_turned hok hat ht hnext hitems htail hall

end Turns

/-! ## §2. What holds of every reader. -/

/-- The method goes on with its array, touches no other, and is over once it returns or throws. -/
def Outcome.Keeps (store : Store) (job : Job) : Outcome → Prop
  | .goes r' store' => (∃ job' stage, r'.task = some (job', stage) ∧ job'.part = job.part) ∧
      ∀ p, job.part ≠ some p → store' p = store p
  | .returns r' => r'.task = none
  | .throws r' _ => r'.task = none

section Keeps

variable {r : Reader} {store : Store} {refused : Bool} {job : Job} {stage₀ : Stage} {outcome : Outcome}

theorem Reader.copy_keeps (part : Part) (pos pos₀ : Nat) :
    (r.copy store part pos).Keeps store (.into part pos₀) := by
  refine ⟨⟨_, _, rfl, rfl⟩, fun p hp => ?_⟩
  exact Function.update_of_ne (fun h => hp (congrArg some h.symm)) _ _

theorem Reader.turn_keeps (ht : r.task = some (job, stage₀)) (h : r.turn store refused = some outcome) :
    outcome.Keeps store job := by
  unfold Reader.turn at h
  rw [ht] at h
  cases stage₀ with
  | waiting => cases job <;> cases h
  | resting => cases job <;> cases h
  | loop =>
    cases job with
    | into part pos =>
      obtain rfl := Option.some.inj h
      split
      · rfl
      · split
        · rfl
        · split
          · exact ⟨⟨_, _, rfl, rfl⟩, fun _ _ => rfl⟩
          · exact copy_keeps part pos pos
    | finish =>
      obtain rfl := Option.some.inj h
      split
      · rfl
      · split
        · exact ⟨⟨_, _, rfl, rfl⟩, fun _ _ => rfl⟩
        · rfl

theorem Reader.receive_keeps (b : Bytes) : (r.receive store job b).Keeps store job := by
  unfold Reader.receive
  dsimp only
  split
  · rfl
  · split
    · exact ⟨⟨_, _, rfl, rfl⟩, fun _ _ => rfl⟩
    · cases job with
      | into part pos => exact copy_keeps part pos pos
      | finish => rfl

theorem Reader.answer_keeps (ht : r.task = some (job, stage₀)) (h : r.answer store refused = some outcome) :
    outcome.Keeps store job := by
  unfold Reader.answer at h
  rw [ht] at h
  cases stage₀ with
  | loop => cases h
  | resting => cases h
  | waiting =>
    dsimp only at h
    cases hnext : r.next with
    | none =>
      rw [hnext] at h
      cases h
    | some got =>
      obtain ⟨answer, stream⟩ := got
      rw [hnext] at h
      obtain rfl := Option.some.inj h
      cases answer with
      | failed e => rfl
      | done =>
        dsimp only
        split
        · rfl
        · cases job <;> rfl
      | value item =>
        dsimp only
        split
        · rfl
        · cases item with
          | other => rfl
          | bytes b => exact receive_keeps b

theorem Reader.rest_keeps (ht : r.task = some (job, stage₀)) (h : r.rest store refused = some outcome) :
    outcome.Keeps store job := by
  unfold Reader.rest at h
  rw [ht] at h
  cases stage₀ with
  | waiting => cases h
  | loop => cases h
  | resting =>
    obtain rfl := Option.some.inj h
    split
    · rfl
    · exact ⟨⟨_, _, rfl, rfl⟩, fun _ _ => rfl⟩

end Keeps

end My98.Web.StateFormat
