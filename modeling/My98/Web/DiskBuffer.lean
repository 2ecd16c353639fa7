/-
  My98.Web.DiskBuffer — v86's view of the disk and its cached boot sector
  (`src/disk/web/client.js`: `DiskBuffer`).

  The adapter keeps a FIFO of requests and hands them to the client one at a time.  Its
  bodies run in turns: `pump` runs up to an `await` and is resumed by a later event, and in
  between the machine may call back into the adapter.  `Phase` says where `pump` is.

  The boot sector is cached by the COMPLETION of `get_and_cache(0, 512)` and dropped by the
  ENQUEUEING of a `set` below offset 512.  Between the two stands the queue, so the order in
  which these happen is not the order in which they were asked for.

    • `coherent_of_ordered` — the cache is exact in every run in which no such `set` is enqueued
      while such a read is still queued;
    • `stale_boot_sector` — a run in which it is not.
-/
import My98.Lib.Bytes
import My98.Lib.Machine

namespace My98.Web

open My98.Lib

/-! ## §1. The adapter. -/

structure Request where
  offset : Nat
  length : Nat
  /-- The bytes of a `set`; a read has none. -/
  bytes : Option Bytes
  /-- Whether the callback is the wrapper of `get_and_cache`. -/
  caching : Bool
  deriving DecidableEq

/-- Where `pump` is. -/
inductive Phase where
  /-- Not running: `pumping` is false. -/
  | idle
  /-- Awaiting `client.read` or `client.write` of the request. -/
  | waiting (request : Request)
  /-- Awaiting `onError`. -/
  | reporting
  /-- Inside `request.callback(result)`. -/
  | delivering
  deriving DecidableEq

structure Buffer where
  queue : List Request
  phase : Phase
  failed : Bool
  disposed : Bool
  bootSector : Option Bytes
  /-- The calls of `retry` that await `resumePrefetch`. -/
  resuming : Nat
  deriving DecidableEq

namespace Buffer

def new : Buffer :=
  { queue := [], phase := .idle, failed := false, disposed := false, bootSector := none, resuming := 0 }

def getFromCache (b : Buffer) (offset length : Nat) : Option Bytes :=
  match b.bootSector with
  | some sector => if offset + length ≤ sector.length then some (slice sector offset length) else none
  | none => none

/-- The head of the `while` of `pump`: take the first request, or leave the loop. -/
def turn (b : Buffer) : Buffer :=
  { b with
    phase :=
      match b.queue with
      | request :: _ => if b.failed = false ∧ b.disposed = false then .waiting request else .idle
      | [] => .idle }

def pump (b : Buffer) : Buffer :=
  if b.phase ≠ .idle ∨ b.failed = true ∨ b.disposed = true then b else b.turn

def enqueue (b : Buffer) (request : Request) : Buffer :=
  if b.disposed then b else pump { b with queue := b.queue ++ [request] }

def get (b : Buffer) (offset length : Nat) : Buffer :=
  b.enqueue { offset, length, bytes := none, caching := false }

def getAndCache (b : Buffer) (offset length : Nat) : Buffer :=
  b.enqueue { offset, length, bytes := none, caching := true }

/-- `if(offset < 512) { this.bootSector?.fill(0); this.bootSector = undefined; }`. -/
def dropBoot (b : Buffer) (offset : Nat) : Buffer :=
  if offset < 512 then { b with bootSector := none } else b

def set (b : Buffer) (offset : Nat) (bytes : Bytes) : Buffer :=
  (b.dropBoot offset).enqueue { offset, length := bytes.length, bytes := some bytes, caching := false }

/-- The rest of `pump` after the client has answered `result`; a write answers nothing. -/
def complete (b : Buffer) (request : Request) (result : Bytes) : Buffer :=
  if b.disposed then { b with phase := .idle }
  else
    let b := { b with queue := b.queue.tail, phase := .delivering }
    if request.caching = true ∧ request.offset = 0 ∧ request.length = 512 then
      { b with bootSector := some result }
    else b

def reject (b : Buffer) : Buffer := { b with failed := true, phase := .reporting }

def fail (b : Buffer) : Buffer := { b with failed := true }

/-- `retry` up to its await; `none` when it throws. -/
def retry (b : Buffer) : Option Buffer :=
  if b.phase ≠ .idle ∨ b.disposed = true then none
  else some { b with failed := false, resuming := b.resuming + 1 }

/-- `retry` from its await on; a rejected `resumePrefetch` ends it there. -/
def resumed (b : Buffer) (ok : Bool) : Option Buffer :=
  if b.resuming = 0 then none
  else
    let b := { b with resuming := b.resuming - 1 }
    some (if ok then b.pump else b)

def dispose (b : Buffer) : Buffer := { b with disposed := true, queue := [], bootSector := none }

/-- A `set_state` that does not throw. -/
def setState (b : Buffer) : Buffer := { b with bootSector := none }

end Buffer

/-! ## §2. The adapter and its disk. -/

structure System where
  buffer : Buffer
  /-- What the client reads from and writes to. -/
  content : Bytes
  deriving DecidableEq

inductive Event where
  | get (offset length : Nat)
  | getAndCache (offset length : Nat)
  | set (offset : Nat) (bytes : Bytes)
  | getFromCache (offset length : Nat)
  | fail
  | retry
  | resumed (ok : Bool)
  | dispose
  | setState
  /-- The client answers the request it was given. -/
  | completed
  /-- The client rejects it; a rejected write may have reached the disk all the same. -/
  | rejected (applied : Bool)
  /-- `onError` returns. -/
  | reported
  /-- The callback returns, or throws. -/
  | delivered
  | threw
  deriving DecidableEq

/-- A request the client can answer: its range is inside the disk. -/
def Request.fits (r : Request) (content : Bytes) : Prop := r.offset + r.length ≤ content.length

instance (r : Request) (content : Bytes) : Decidable (r.fits content) :=
  inferInstanceAs (Decidable (_ ≤ _))

/-- What a request does to the disk once the client has carried it out. -/
def Request.apply (content : Bytes) (r : Request) : Bytes :=
  match r.bytes with
  | some bytes => if r.fits content then splice content r.offset bytes else content
  | none => content

namespace System

def init (content : Bytes) : System := { buffer := Buffer.new, content }

def step (s : System) : Event → Option System
  | .get offset length => some { s with buffer := s.buffer.get offset length }
  | .getAndCache offset length => some { s with buffer := s.buffer.getAndCache offset length }
  | .set offset bytes => some { s with buffer := s.buffer.set offset bytes }
  | .getFromCache _ _ => some s
  | .fail => some { s with buffer := s.buffer.fail }
  | .retry => s.buffer.retry.map fun buffer => { s with buffer }
  | .resumed ok => (s.buffer.resumed ok).map fun buffer => { s with buffer }
  | .dispose => some { s with buffer := s.buffer.dispose }
  | .setState => some { s with buffer := s.buffer.setState }
  | .completed =>
    match s.buffer.phase with
    | .waiting request =>
      if request.fits s.content then
        some { buffer := s.buffer.complete request (slice s.content request.offset request.length)
               content := request.apply s.content }
      else none
    | _ => none
  | .rejected applied =>
    match s.buffer.phase with
    | .waiting request =>
      some { buffer := s.buffer.reject
             content := if applied then request.apply s.content else s.content }
    | _ => none
  | .reported =>
    if s.buffer.phase = .reporting then some { s with buffer := { s.buffer with phase := .idle } }
    else none
  | .delivered =>
    if s.buffer.phase = .delivering then some { s with buffer := s.buffer.turn } else none
  | .threw =>
    if s.buffer.phase = .delivering then some { s with buffer := { s.buffer with phase := .idle } }
    else none

/-- The disk after every write enqueued so far: what a `get` enqueued now would read. -/
def pending (s : System) : Bytes := s.buffer.queue.foldl Request.apply s.content

/-- Whatever the cache answers is what a `get` enqueued now would deliver. -/
def Coherent (s : System) : Prop :=
  ∀ offset length bytes, s.buffer.getFromCache offset length = some bytes →
    bytes = slice s.pending offset length

end System

/-- A queued read that will fill the cache. -/
def Request.isBootRead (r : Request) : Prop := r.caching = true ∧ r.offset = 0 ∧ r.length = 512

instance (r : Request) : Decidable r.isBootRead := inferInstanceAs (Decidable (_ ∧ _))

/-- **The order the cache relies on**: no `set` below 512 is enqueued while a read that will
    fill the cache is still queued. -/
def Ordered (s : System) : Event → Prop
  | .set offset _ => offset < 512 → ∀ r ∈ s.buffer.queue, ¬ r.isBootRead
  | _ => True

instance (s : System) (e : Event) : Decidable (Ordered s e) := by
  unfold Ordered
  split <;> infer_instance

/-! ## §3. What a request does to the disk. -/

/-- A request as the adapter builds it. -/
structure Request.WF (r : Request) : Prop where
  sized : ∀ bytes, r.bytes = some bytes → r.length = bytes.length
  caching : r.caching = true → r.bytes = none

section Apply

variable {content : Bytes} {r : Request}

theorem Request.apply_read (hb : r.bytes = none) : r.apply content = content := by
  unfold Request.apply
  rw [hb]

theorem Request.apply_write {bytes : Bytes} (hb : r.bytes = some bytes) (hf : r.fits content) :
    r.apply content = splice content r.offset bytes := by
  unfold Request.apply
  rw [hb]
  exact if_pos hf

theorem Request.apply_outside (hf : ¬ r.fits content) : r.apply content = content := by
  unfold Request.apply
  cases r.bytes with
  | none => rfl
  | some bytes => exact if_neg hf

/-- Carrying a write out twice is carrying it out once. -/
theorem Request.apply_apply (hr : r.WF) : r.apply (r.apply content) = r.apply content := by
  cases hb : r.bytes with
  | none => rw [Request.apply_read hb, Request.apply_read hb]
  | some bytes =>
    by_cases hf : r.fits content
    · have hfit := hf
      unfold Request.fits at hfit
      rw [hr.sized bytes hb] at hfit
      have hagain : r.fits (splice content r.offset bytes) := by
        unfold Request.fits
        rw [length_splice hfit, hr.sized bytes hb]
        exact hfit
      rw [Request.apply_write hb hf, Request.apply_write hb hagain]
      refine List.ext_getElem? fun i => ?_
      rw [getElem?_splice _ _ _ _ (by rw [length_splice hfit]; omega),
        getElem?_splice _ _ _ _ (by omega)]
      by_cases h1 : i < r.offset
      · rw [if_pos h1, if_pos h1]
      · rw [if_neg h1, if_neg h1]
        by_cases h2 : i < r.offset + bytes.length
        · rw [if_pos h2, if_pos h2]
        · rw [if_neg h2, if_neg h2]
    · rw [Request.apply_outside hf, Request.apply_outside hf]

/-- A write above the boot sector leaves the boot sector alone. -/
theorem Request.slice_apply (hr : ∀ bytes, r.bytes = some bytes → 512 ≤ r.offset) :
    slice (r.apply content) 0 512 = slice content 0 512 := by
  cases hb : r.bytes with
  | none => rw [Request.apply_read hb]
  | some bytes =>
    have hoff := hr bytes hb
    by_cases hf : r.fits content
    · rw [Request.apply_write hb hf]
      unfold Request.fits at hf
      refine List.ext_getElem? fun i => ?_
      rw [getElem?_slice, getElem?_slice, getElem?_splice _ _ _ _ (by omega)]
      by_cases hi : i < 512
      · rw [if_pos hi, if_pos hi, if_pos (by omega)]
      · rw [if_neg hi, if_neg hi]
    · rw [Request.apply_outside hf]

theorem slice_foldl_apply (queue : List Request)
    (hq : ∀ r ∈ queue, ∀ bytes, r.bytes = some bytes → 512 ≤ r.offset) :
    ∀ content : Bytes, slice (queue.foldl Request.apply content) 0 512 = slice content 0 512 := by
  induction queue with
  | nil =>
    intro content
    rfl
  | cons r rest ih =>
    intro content
    rw [List.foldl_cons, ih (fun w hw => hq w (by simp [hw]))]
    exact Request.slice_apply (hq r (by simp))

end Apply

/-! ## §4. The invariant. -/

/-- `w` may stand behind `r` in the queue. -/
def Behind (r w : Request) : Prop :=
  r.isBootRead → ∀ bytes, w.bytes = some bytes → 512 ≤ w.offset

structure System.Inv (s : System) : Prop where
  /-- The request the client works on is the first of the queue. -/
  head : ∀ r, s.buffer.phase = .waiting r → s.buffer.disposed = false →
    ∃ rest, s.buffer.queue = r :: rest
  closed : s.buffer.disposed = true → s.buffer.queue = [] ∧ s.buffer.bootSector = none
  requests : ∀ r ∈ s.buffer.queue, r.WF
  /-- No write below 512 stands behind a read that will fill the cache. -/
  behind : s.buffer.queue.Pairwise Behind
  boot : ∀ sector, s.buffer.bootSector = some sector →
    sector.length = 512 ∧ sector = slice s.pending 0 512

namespace System.Inv

variable {s : System}

theorem init (content : Bytes) : (System.init content).Inv where
  head := by
    intro r h
    cases h
  closed := by
    intro h
    cases h
  requests := by
    intro r h
    cases h
  behind := List.Pairwise.nil
  boot := by
    intro sector h
    cases h

/-- Where `pump` stands matters only for the request it waits for. -/
theorem rephase (h : s.Inv) {phase : Phase}
    (hp : ∀ r, phase = .waiting r → s.buffer.disposed = false → ∃ rest, s.buffer.queue = r :: rest) :
    System.Inv { s with buffer := { s.buffer with phase } } :=
  ⟨hp, h.closed, h.requests, h.behind, h.boot⟩

theorem idle (h : s.Inv) : System.Inv { s with buffer := { s.buffer with phase := .idle } } := by
  apply h.rephase
  intro r hr
  cases hr

theorem turn (h : s.Inv) : System.Inv { s with buffer := s.buffer.turn } := by
  apply h.rephase
  intro r hr _
  cases hq : s.buffer.queue with
  | nil =>
    rw [hq] at hr
    cases hr
  | cons r' rest =>
    rw [hq] at hr
    dsimp only at hr
    split at hr
    · obtain rfl : r' = r := Phase.waiting.inj hr
      exact ⟨rest, rfl⟩
    · cases hr

theorem pump (h : s.Inv) : System.Inv { s with buffer := s.buffer.pump } := by
  unfold Buffer.pump
  by_cases hb : s.buffer.phase ≠ .idle ∨ s.buffer.failed = true ∨ s.buffer.disposed = true
  · rw [if_pos hb]
    exact h
  · rw [if_neg hb]
    exact h.turn

/-- Enqueueing a request that may stand behind all that are queued, and that leaves the cached
    sector as a `get` would read it. -/
theorem enqueue (h : s.Inv) {r : Request} (hr : r.WF)
    (hbehind : ∀ q ∈ s.buffer.queue, Behind q r)
    (hboot : s.buffer.bootSector = none ∨ ∀ bytes, r.bytes = some bytes → 512 ≤ r.offset) :
    System.Inv { s with buffer := s.buffer.enqueue r } := by
  unfold Buffer.enqueue
  by_cases hd : s.buffer.disposed = true
  · rw [if_pos hd]
    exact h
  · rw [if_neg hd]
    have hpushed : System.Inv { s with buffer := { s.buffer with queue := s.buffer.queue ++ [r] } } := by
      refine ⟨?_, ?_, ?_, ?_, ?_⟩
      · intro r' hr' hd'
        obtain ⟨rest, hrest⟩ := h.head r' hr' hd'
        refine ⟨rest ++ [r], ?_⟩
        show s.buffer.queue ++ [r] = _
        rw [hrest, List.cons_append]
      · intro hd'
        exact absurd hd' hd
      · intro q hq
        rcases List.mem_append.mp hq with hq | hq
        · exact h.requests q hq
        · rw [List.mem_singleton.mp hq]
          exact hr
      · show (s.buffer.queue ++ [r]).Pairwise Behind
        rw [List.pairwise_append]
        refine ⟨h.behind, List.pairwise_singleton _ _, ?_⟩
        intro q hq w hw
        rw [List.mem_singleton.mp hw]
        exact hbehind q hq
      · intro sector hs
        obtain ⟨hlen, hsector⟩ := h.boot sector hs
        refine ⟨hlen, hsector.trans ?_⟩
        show _ = slice ((s.buffer.queue ++ [r]).foldl Request.apply s.content) 0 512
        rw [List.foldl_append]
        rcases hboot with hnone | hhigh
        · have hs' : s.buffer.bootSector = some sector := hs
          rw [hnone] at hs'
          cases hs'
        · exact (Request.slice_apply hhigh).symm
    exact hpushed.pump

/-- A read may stand anywhere. -/
theorem enqueue_read (h : s.Inv) {r : Request} (hr : r.bytes = none) :
    System.Inv { s with buffer := s.buffer.enqueue r } := by
  have hnone : ∀ bytes, r.bytes ≠ some bytes := by
    intro bytes hb
    rw [hr] at hb
    cases hb
  apply h.enqueue
  · exact ⟨fun bytes hb => absurd hb (hnone bytes), fun _ => hr⟩
  · intro q _ _ bytes hb
    exact absurd hb (hnone bytes)
  · right
    intro bytes hb
    exact absurd hb (hnone bytes)

theorem dropBoot (h : s.Inv) (offset : Nat) :
    System.Inv { s with buffer := s.buffer.dropBoot offset } := by
  unfold Buffer.dropBoot
  by_cases ho : offset < 512
  · rw [if_pos ho]
    refine ⟨h.head, ?_, h.requests, h.behind, ?_⟩
    · intro hd
      exact ⟨(h.closed hd).1, rfl⟩
    · intro sector hs
      cases hs
  · rw [if_neg ho]
    exact h

/-- The client carried out the first request: the disk a `get` would read is the same, and a
    cached sector is read from it. -/
theorem complete (h : s.Inv) {r : Request} (hw : s.buffer.phase = .waiting r)
    (hf : r.fits s.content) :
    System.Inv { buffer := s.buffer.complete r (slice s.content r.offset r.length)
                 content := r.apply s.content } := by
  unfold Buffer.complete
  by_cases hd : s.buffer.disposed = true
  · rw [if_pos hd]
    obtain ⟨hq, hb⟩ := h.closed hd
    refine ⟨?_, fun _ => ⟨hq, hb⟩, h.requests, h.behind, ?_⟩
    · intro r' hr'
      cases hr'
    · intro sector hs
      have hs' : s.buffer.bootSector = some sector := hs
      rw [hb] at hs'
      cases hs'
  · rw [if_neg hd]
    obtain ⟨rest, hq⟩ := h.head r hw (Bool.eq_false_iff.mpr hd)
    have hreqs := h.requests
    have hbehind := h.behind
    rw [hq] at hreqs hbehind
    obtain ⟨hfront, hrest⟩ := List.pairwise_cons.mp hbehind
    -- popping the request and applying it to the disk are one and the same change
    have hpending : s.pending = rest.foldl Request.apply (r.apply s.content) := by
      unfold System.pending
      rw [hq, List.foldl_cons]
    dsimp only
    rw [hq, List.tail_cons]
    by_cases hboot : r.caching = true ∧ r.offset = 0 ∧ r.length = 512
    · rw [if_pos hboot]
      obtain ⟨hcaching, hoff, hlen⟩ := hboot
      refine ⟨?_, fun hd' => absurd hd' hd, fun w hw' => hreqs w (by simp [hw']), hrest, ?_⟩
      · intro r' hr'
        cases hr'
      · intro sector hs
        obtain rfl := Option.some.inj hs
        unfold Request.fits at hf
        rw [hoff, hlen] at hf ⊢
        refine ⟨length_slice_of_le hf, ?_⟩
        show _ = slice (rest.foldl Request.apply (r.apply s.content)) 0 512
        -- the request itself writes nothing, and nothing behind it reaches the boot sector
        rw [slice_foldl_apply rest (fun w hw' => hfront w hw' ⟨hcaching, hoff, hlen⟩),
          Request.apply_read ((hreqs r (by simp)).caching hcaching)]
    · rw [if_neg hboot]
      refine ⟨?_, fun hd' => absurd hd' hd, fun w hw' => hreqs w (by simp [hw']), hrest, ?_⟩
      · intro r' hr'
        cases hr'
      · intro sector hs
        obtain ⟨hlen, hsector⟩ := h.boot sector hs
        rw [hpending] at hsector
        exact ⟨hlen, hsector⟩

/-- The client rejected the first request.  It stays queued, so whether it reached the disk
    does not change what a `get` would read. -/
theorem reject (h : s.Inv) {r : Request} (hw : s.buffer.phase = .waiting r) (applied : Bool) :
    System.Inv { buffer := s.buffer.reject
                 content := if applied then r.apply s.content else s.content } := by
  have hphase : System.Inv { s with buffer := s.buffer.reject } := by
    refine ⟨?_, h.closed, h.requests, h.behind, h.boot⟩
    intro r' hr'
    cases hr'
  cases applied with
  | false => exact hphase
  | true =>
    refine ⟨hphase.head, h.closed, h.requests, h.behind, ?_⟩
    intro sector hs
    obtain ⟨hlen, hsector⟩ := h.boot sector hs
    have hopen : s.buffer.disposed = false := by
      rw [Bool.eq_false_iff]
      intro hd
      have hs' : s.buffer.bootSector = some sector := hs
      rw [(h.closed hd).2] at hs'
      cases hs'
    obtain ⟨rest, hq⟩ := h.head r hw hopen
    refine ⟨hlen, hsector.trans ?_⟩
    show slice (s.buffer.queue.foldl Request.apply s.content) 0 512
      = slice (s.buffer.queue.foldl Request.apply (r.apply s.content)) 0 512
    rw [hq, List.foldl_cons, List.foldl_cons, Request.apply_apply (h.requests r (by simp [hq]))]

theorem dispose (s : System) : System.Inv { s with buffer := s.buffer.dispose } where
  head := by
    intro r _ hd
    cases hd
  closed := fun _ => ⟨rfl, rfl⟩
  requests := by
    intro r hr
    cases hr
  behind := List.Pairwise.nil
  boot := by
    intro sector hs
    cases hs

/-- **Every step in order keeps the invariant.** -/
theorem step {s' : System} {e : Event} (h : s.Inv) (hok : Ordered s e)
    (hs : s.step e = some s') : s'.Inv := by
  cases e with
  | get offset length =>
    obtain rfl := Option.some.inj hs
    exact h.enqueue_read rfl
  | getAndCache offset length =>
    obtain rfl := Option.some.inj hs
    exact h.enqueue_read rfl
  | set offset bytes =>
    obtain rfl := Option.some.inj hs
    -- A write below 512 drops the cached boot sector before it is queued.
    have hdropped := h.dropBoot offset
    have hqueue : (s.buffer.dropBoot offset).queue = s.buffer.queue := by
      unfold Buffer.dropBoot
      split <;> rfl
    show System.Inv { s with buffer := (s.buffer.dropBoot offset).enqueue _ }
    apply hdropped.enqueue
    · constructor
      · intro b hb
        obtain rfl := Option.some.inj hb
        rfl
      · intro hc
        cases hc
    · intro q hq hboot b _
      -- a write below 512 finds no such read in the queue
      rw [hqueue] at hq
      by_cases ho : offset < 512
      · exact absurd hboot (hok ho q hq)
      · show 512 ≤ offset
        omega
    -- Above it the write does not touch what is cached.
    · by_cases ho : offset < 512
      · left
        show (s.buffer.dropBoot offset).bootSector = none
        unfold Buffer.dropBoot
        rw [if_pos ho]
      · right
        intro b _
        show 512 ≤ offset
        omega
  | getFromCache offset length =>
    obtain rfl := Option.some.inj hs
    exact h
  | fail =>
    obtain rfl := Option.some.inj hs
    exact ⟨h.head, h.closed, h.requests, h.behind, h.boot⟩
  | retry =>
    obtain ⟨b, hb, rfl⟩ := Option.map_eq_some_iff.mp hs
    unfold Buffer.retry at hb
    split at hb
    · cases hb
    · obtain rfl := Option.some.inj hb
      exact ⟨h.head, h.closed, h.requests, h.behind, h.boot⟩
  | resumed ok =>
    obtain ⟨b, hb, rfl⟩ := Option.map_eq_some_iff.mp hs
    unfold Buffer.resumed at hb
    split at hb
    · cases hb
    · obtain rfl := Option.some.inj hb
      -- A retry that was answered goes on with the queue.
      have hless : System.Inv { s with buffer := { s.buffer with resuming := s.buffer.resuming - 1 } } :=
        ⟨h.head, h.closed, h.requests, h.behind, h.boot⟩
      cases ok with
      | true => exact hless.pump
      | false => exact hless
  | dispose =>
    obtain rfl := Option.some.inj hs
    exact dispose s
  | setState =>
    obtain rfl := Option.some.inj hs
    -- A state that is set is a change from offset 0 on.
    exact h.dropBoot 0
  | completed =>
    unfold System.step at hs
    cases hw : s.buffer.phase with
    | waiting r =>
      rw [hw] at hs
      dsimp only at hs
      split at hs
      next hf =>
        obtain rfl := Option.some.inj hs
        exact h.complete hw hf
      next => cases hs
    | idle => rw [hw] at hs; cases hs
    | reporting => rw [hw] at hs; cases hs
    | delivering => rw [hw] at hs; cases hs
  | rejected applied =>
    unfold System.step at hs
    cases hw : s.buffer.phase with
    | waiting r =>
      rw [hw] at hs
      obtain rfl := Option.some.inj hs
      exact h.reject hw applied
    | idle => rw [hw] at hs; cases hs
    | reporting => rw [hw] at hs; cases hs
    | delivering => rw [hw] at hs; cases hs
  | reported =>
    unfold System.step at hs
    dsimp only at hs
    split at hs
    · obtain rfl := Option.some.inj hs
      exact h.idle
    · cases hs
  | delivered =>
    unfold System.step at hs
    dsimp only at hs
    split at hs
    · obtain rfl := Option.some.inj hs
      exact h.turn
    · cases hs
  | threw =>
    unfold System.step at hs
    dsimp only at hs
    split at hs
    · obtain rfl := Option.some.inj hs
      exact h.idle
    · cases hs

theorem coherent (h : s.Inv) : s.Coherent := by
  intro offset length bytes hbytes
  unfold Buffer.getFromCache at hbytes
  cases hb : s.buffer.bootSector with
  | none =>
    rw [hb] at hbytes
    cases hbytes
  | some sector =>
    rw [hb] at hbytes
    dsimp only at hbytes
    obtain ⟨hlen, hsector⟩ := h.boot sector hb
    split at hbytes
    next hfit =>
      obtain rfl := Option.some.inj hbytes
      rw [hsector, slice_slice (by omega), Nat.zero_add]
    next => cases hbytes

end System.Inv

/-! ## §5. Coherence. -/

/-- **The cached boot sector is exact** in every state of every run that keeps the order. -/
theorem coherent_of_ordered (content : Bytes) (events : List Event) (s : System)
    (hok : Throughout System.step Ordered (System.init content) events)
    (hrun : run System.step (System.init content) events = some s) : s.Coherent := by
  have hinv : s.Inv := run_invariant (fun _ _ _ h hok hs => h.step hok hs) events _ s
    (System.Inv.init content) hok hrun
  exact hinv.coherent

/-! Runs on a disk of two empty sectors. -/

def demoStart : System := System.init (List.replicate 1024 0)

/-- The state at the end of a run from there. -/
def demoEnd (events : List Event) : System := (run System.step demoStart events).getD demoStart

/-- A read that fills the cache, a write that drops it again, and a second read. -/
def demoOrdered : List Event :=
  [.getAndCache 0 512, .completed, .delivered, .getFromCache 3 2, .set 3 [7], .getAndCache 0 512,
   .completed, .delivered, .completed, .delivered]

theorem demoOrdered_coherent :
    (demoEnd demoOrdered).buffer.getFromCache 3 2 = some [7, 0] ∧ (demoEnd demoOrdered).Coherent :=
  ⟨by decide +kernel,
    coherent_of_ordered (List.replicate 1024 0) demoOrdered _ (by decide +kernel)
      (by decide +kernel)⟩

/-- The write is enqueued while the read is in flight. -/
def demoOverlapping : List Event :=
  [.getAndCache 0 512, .set 3 [7], .completed, .delivered, .completed, .delivered]

/-- The read completes after the write was enqueued and puts the bytes from before the write
    into the cache; there they stay, also once the write has completed. -/
theorem stale_boot_sector :
    run System.step demoStart demoOverlapping = some (demoEnd demoOverlapping)
      ∧ (demoEnd demoOverlapping).buffer.getFromCache 3 2 = some [0, 0]
      ∧ slice (demoEnd demoOverlapping).pending 3 2 = [7, 0]
      ∧ ¬ (demoEnd demoOverlapping).Coherent := by
  have hcache : (demoEnd demoOverlapping).buffer.getFromCache 3 2 = some [0, 0] := by decide +kernel
  have hpending : slice (demoEnd demoOverlapping).pending 3 2 = [7, 0] := by decide +kernel
  refine ⟨by decide +kernel, hcache, hpending, ?_⟩
  intro hc
  have hfalse := hc 3 2 [0, 0] hcache
  rw [hpending] at hfalse
  revert hfalse
  decide

end My98.Web
