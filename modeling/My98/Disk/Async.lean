/-
  My98.Disk.Async — how a call into the disk engine runs, waits and stops
  (`src/disk/src/lib.rs`: `Error`, `Io`, `check`, `exact`).

  Every engine function is an `Async σ`: it runs over a `&mut` state `σ` and a clock that
  ticks each time the host is consulted, so that ONE `Io` value fixes an arbitrary pattern
  of answers: which polls of `cancelled()` are true, and whether each awaited read yields
  bytes (of any length), fails, or never resumes because the caller dropped the future.

  A call that does not return stops, and a stop keeps whatever the call had already done:
    • `error`    — an `Err` left through `?`;
    • `dropped`  — the future was dropped at an await point;
    • `panic`    — an `unwrap`, an index or an unsigned operation went wrong;
    • `diverged` — a `while` loop stopped making progress.
  The last two are what the engine must never do.
-/
import My98.Lib.Bytes
import My98.Lib.Prog

namespace My98.Disk

open My98.Lib

/-! ## §1. Errors and stops. -/

structure Error where
  code : String
  message : String
  deriving DecidableEq, Repr

def operation (e : String) : Error := ⟨"OPERATION_FAILED", e⟩

def corrupt (e : String) : Error := ⟨"CORRUPTION", e⟩

inductive Stop where
  | error (e : Error)
  | dropped
  | panic
  | diverged
  deriving DecidableEq, Repr

/-- A stop the caller can recover from: an error result, or its own cancellation. -/
def Stop.Clean : Stop → Prop
  | .error _ => True
  | .dropped => True
  | .panic => False
  | .diverged => False

@[simp] theorem Stop.clean_error (e : Error) : (Stop.error e).Clean := trivial
@[simp] theorem Stop.clean_dropped : Stop.dropped.Clean := trivial

/-! ## §2. The host. -/

/-- What one awaited `Io::read` comes back with. -/
inductive Answer where
  | bytes (b : Bytes)
  | failed (e : Error)
  | dropped
  deriving DecidableEq, Repr

/-- The host of one engine call.  Each field is indexed by the clock. -/
structure Io where
  cancelled : Nat → Bool
  /-- `read(source, offset, length)`. -/
  read : Nat → String → Nat → Nat → Answer
  /-- `random::<N>()`; `none` is an unavailable generator. -/
  random : Nat → (n : Nat) → Option (Fin n → UInt8)

/-- What a host may hand out: `host source offset b` says that a read of `b.length` bytes at
    `offset` may return `b`. -/
abbrev Host := String → Nat → Bytes → Prop

/-- Every read that comes back with as many bytes as were asked for, comes back with bytes
    the host may hand out.  It may also fail, come up short or be dropped. -/
def Io.Within (io : Io) (host : Host) : Prop :=
  ∀ t source offset length b,
    io.read t source offset length = .bytes b → b.length = length → host source offset b

/-- The host that stores `file source` under each source. -/
def stored (file : String → Bytes) : Host := fun source offset b =>
  b = slice (file source) offset b.length

abbrev Async (σ α : Type) := EStateM Stop (σ × Nat) α

variable {σ α : Type}

/-- One consultation of the host. -/
def tick : Async σ Nat := do
  let (s, t) ← get
  set (s, t + 1)
  pure t

def fail (e : Error) : Async σ α := throw (.error e)

/-- The guard `if !p { return Err(e) }`. -/
def require (p : Prop) [Decidable p] (e : Error) : Async σ Unit :=
  if p then pure () else fail e

def check (io : Io) : Async σ Unit := do
  let t ← tick
  require (io.cancelled t = false) ⟨"CANCELLED", "Operation cancelled"⟩

/-- The await on `io.read`. -/
def awaitRead (io : Io) (source : String) (offset length : Nat) : Async σ Bytes := do
  match io.read (← tick) source offset length with
  | .bytes b => pure b
  | .failed e => fail e
  | .dropped => throw .dropped

def exact (io : Io) (source : String) (offset length : Nat) : Async σ Bytes := do
  check io
  let b ← awaitRead io source offset length
  check io
  require (b.length = length) ⟨"IO_ERROR", "Short source read"⟩
  pure b

/-- Lift a `Result` whose error is already an `Error`. -/
def ofResult : Except Error α → Async σ α
  | .ok a => pure a
  | .error e => fail e

/-- `map_err(operation)` on a `Result` of the crypto crate. -/
def ofCrypto : Except String α → Async σ α
  | .ok a => pure a
  | .error e => fail (operation e)

/-! ## §3. Operations that panic. -/

def unwrap : Option α → Async σ α
  | some a => pure a
  | none => throw .panic

/-- `a - b` on an unsigned type. -/
def usub (a b : Nat) : Async σ Nat :=
  if b ≤ a then pure (a - b) else throw .panic

/-- `a * b` on `u64`. -/
def umul (a b : Nat) : Async σ Nat :=
  if a * b < 2 ^ 64 then pure (a * b) else throw .panic

/-- `b[lo..hi]`. -/
def index (b : Bytes) (lo hi : Nat) : Async σ Bytes :=
  if lo ≤ hi ∧ hi ≤ b.length then pure (slice b lo (hi - lo)) else throw .panic

/-- `out[lo..hi].copy_from_slice(src)`. -/
def copyFromSlice (out : Bytes) (lo hi : Nat) (src : Bytes) : Async σ Bytes :=
  if lo ≤ hi ∧ hi ≤ out.length ∧ src.length = hi - lo then pure (splice out lo src)
  else throw .panic

/-! ## §4. Rules. -/

section Rules

variable {Q : α → σ × Nat → Prop} {E : Stop → σ × Nat → Prop} {s : σ × Nat}

@[simp] theorem wp_tick {Q : Nat → σ × Nat → Prop} :
    wp (tick : Async σ Nat) Q E s ↔ Q s.2 (s.1, s.2 + 1) := Iff.rfl

@[simp] theorem wp_fail (e : Error) : wp (fail e : Async σ α) Q E s ↔ E (.error e) s := Iff.rfl

theorem wp_require {Q : Unit → σ × Nat → Prop} {p : Prop} [Decidable p] {e : Error}
    (hok : p → Q () s) (hstop : ¬ p → E (.error e) s) :
    wp (require p e : Async σ Unit) Q E s :=
  wp_ite.mpr ⟨hok, hstop⟩

/-- A poll of the cancellation flag changes nothing and may stop the call. -/
theorem wp_check {Q : Unit → σ × Nat → Prop} (io : Io)
    (hok : Q () (s.1, s.2 + 1)) (hstop : ∀ e, E (.error e) (s.1, s.2 + 1)) :
    wp (check io : Async σ Unit) Q E s := by
  unfold check
  rw [wp_bind, wp_tick]
  exact wp_require (fun _ => hok) (fun _ => hstop _)

/-- **`exact` returns bytes of the host or stops cleanly**, and never touches the state. -/
theorem wp_exact {host : Host} {io : Io} (hio : io.Within host)
    {Q : Bytes → σ × Nat → Prop} {source : String} {offset length : Nat}
    (hok : ∀ t b, b.length = length → host source offset b → Q b (s.1, t))
    (hstop : ∀ t e, Stop.Clean e → E e (s.1, t)) :
    wp (exact io source offset length : Async σ Bytes) Q E s := by
  unfold exact
  rw [wp_bind]
  refine wp_check io ?_ (fun e => hstop _ _ trivial)
  rw [wp_bind]
  unfold awaitRead
  rw [wp_bind, wp_tick]
  cases hr : io.read (s.2 + 1) source offset length with
  | failed e => exact hstop _ _ trivial
  | dropped => exact hstop _ _ trivial
  | bytes b =>
    rw [wp_pure, wp_bind]
    refine wp_check io ?_ (fun e => hstop _ _ trivial)
    rw [wp_bind]
    refine wp_require (fun hlen => ?_) (fun _ => hstop _ _ trivial)
    exact hok _ b hlen (hio _ _ _ _ b hr hlen)

theorem wp_ofResult {r : Except Error α}
    (hok : ∀ a, r = .ok a → Q a s) (hstop : ∀ e, r = .error e → E (.error e) s) :
    wp (ofResult r : Async σ α) Q E s := by
  cases r with
  | ok a => exact hok a rfl
  | error e => exact hstop e rfl

theorem wp_ofCrypto {r : Except String α}
    (hok : ∀ a, r = .ok a → Q a s) (hstop : ∀ e, E (.error (operation e)) s) :
    wp (ofCrypto r : Async σ α) Q E s := by
  cases r with
  | ok a => exact hok a rfl
  | error e => exact hstop e

theorem unwrap_some (a : α) : (unwrap (some a) : Async σ α) = pure a := rfl

theorem usub_eq {a b : Nat} (h : b ≤ a) : (usub a b : Async σ Nat) = pure (a - b) := if_pos h

theorem umul_eq {a b : Nat} (h : a * b < 2 ^ 64) : (umul a b : Async σ Nat) = pure (a * b) :=
  if_pos h

theorem index_eq {b : Bytes} {lo hi : Nat} (h : lo ≤ hi) (h' : hi ≤ b.length) :
    (index b lo hi : Async σ Bytes) = pure (slice b lo (hi - lo)) := if_pos ⟨h, h'⟩

theorem copyFromSlice_eq {out src : Bytes} {lo hi : Nat} (h : lo ≤ hi) (h' : hi ≤ out.length)
    (hsrc : src.length = hi - lo) :
    (copyFromSlice out lo hi src : Async σ Bytes) = pure (splice out lo src) :=
  if_pos ⟨h, h', hsrc⟩

end Rules

end My98.Disk
