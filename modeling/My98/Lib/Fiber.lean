/-
  My98.Lib.Fiber — tasks that share a state, and what holds however they interleave.

  A coroutine is a TREE: either it has ended (with a result or an exception), or it performs one
  operation and goes on with the answer.  The tree says nothing about what an operation does;
  a HANDLER says it, against a shared state and an input that the environment chooses.  So one
  program text can be run against several environments.

    • `Fiber Op Ret ε α`  — the tree, with `do` notation and `try`/`catch`;
    • `Contract`         — a handler, what the other tasks may do in between (`rely`), which
      answers are considered (`allows`), what must be true whenever an operation is issued
      (`requires`) and what every step does to the shared state (`guarantee`);
    • `Sat c t Q E s`    — `t`, started in `s`, keeps to the contract and ends with `Q` or `E`;
    • one rewriting rule per construct, as for sequential programs;
    • `Pool`             — any family of tasks over one state: start, advance, drop;
    • `pool_invariant`   — tasks that each keep a contract the others can rely on, keep it
      together, in every run.
-/
import Mathlib.Algebra.Order.Ring.Nat
import Mathlib.Tactic.Common
import My98.Lib.Machine

namespace My98.Lib

/-! ## §1. Tasks. -/

/-- A coroutine over the operations `Op`, where operation `op` answers with a `Ret op`. -/
inductive Fiber (Op : Type) (Ret : Op → Type) (ε α : Type) where
  | done (a : α)
  | fail (e : ε)
  | call (op : Op) (next : Ret op → Fiber Op Ret ε α)

namespace Fiber

variable {Op : Type} {Ret : Op → Type} {ε α β : Type}

def bind : Fiber Op Ret ε α → (α → Fiber Op Ret ε β) → Fiber Op Ret ε β
  | done a, f => f a
  | fail e, _ => fail e
  | call op next, f => call op (fun r => bind (next r) f)

/-- `try t catch e => handler e`. -/
def catching : Fiber Op Ret ε α → (ε → Fiber Op Ret ε α) → Fiber Op Ret ε α
  | done a, _ => done a
  | fail e, handler => handler e
  | call op next, handler => call op (fun r => catching (next r) handler)

instance : Monad (Fiber Op Ret ε) where
  pure := done
  bind := bind

instance : MonadExceptOf ε (Fiber Op Ret ε) where
  throw := fail
  tryCatch := catching

/-- Perform one operation. -/
def perform (op : Op) : Fiber Op Ret ε (Ret op) := call op done

/-- The value of a fallible computation, or its exception. -/
def ofExcept : Except ε α → Fiber Op Ret ε α
  | .ok a => done a
  | .error e => fail e

/-- Perform an operation that answers with a value or an exception, and raise the latter. -/
def raising (t : Fiber Op Ret ε (Except ε α)) : Fiber Op Ret ε α := t >>= ofExcept

/-- The operation the task performs next. -/
def next? : Fiber Op Ret ε α → Option Op
  | call op _ => some op
  | _ => none

/-- Every operation that the task may ever issue satisfies `p`. -/
def All (p : Op → Prop) : Fiber Op Ret ε α → Prop
  | done _ => True
  | fail _ => True
  | call op next => p op ∧ ∀ r, All p (next r)

/-- Has the task ended? -/
def ended : Fiber Op Ret ε α → Bool
  | call _ _ => false
  | _ => true

section All

variable {p : Op → Prop}

@[simp] theorem all_pure (a : α) : All p (pure a : Fiber Op Ret ε α) := trivial

@[simp] theorem all_throw (e : ε) : All p (throw e : Fiber Op Ret ε α) := trivial

@[simp] theorem all_ofExcept (x : Except ε α) : All p (ofExcept x : Fiber Op Ret ε α) := by
  cases x <;> exact trivial

@[simp] theorem all_perform {op : Op} :
    All p (perform op : Fiber Op Ret ε (Ret op)) ↔ p op := by
  simp [perform, All]

theorem all_mono {q : Op → Prop} {t : Fiber Op Ret ε α} (hpq : ∀ op, p op → q op) (ht : All p t) :
    All q t := by
  induction t with
  | done a => exact trivial
  | fail e => exact trivial
  | call op next ih => exact ⟨hpq op ht.1, fun r => ih r (ht.2 r)⟩

theorem all_bind {t : Fiber Op Ret ε α} {f : α → Fiber Op Ret ε β} (ht : All p t)
    (hf : ∀ a, All p (f a)) : All p (t >>= f) := by
  show All p (bind t f)
  induction t with
  | done a => exact hf a
  | fail e => exact trivial
  | call op next ih => exact ⟨ht.1, fun r => ih r (ht.2 r)⟩

theorem all_tryCatch {t : Fiber Op Ret ε α} {handler : ε → Fiber Op Ret ε α} (ht : All p t)
    (hh : ∀ e, All p (handler e)) : All p (tryCatch t handler) := by
  show All p (catching t handler)
  induction t with
  | done a => exact trivial
  | fail e => exact hh e
  | call op next ih => exact ⟨ht.1, fun r => ih r (ht.2 r)⟩

theorem all_raising {t : Fiber Op Ret ε (Except ε α)} (ht : All p t) : All p (raising t) :=
  all_bind ht all_ofExcept

end All

end Fiber

/-! ## §2. Contracts. -/

section Contracts

variable {Op : Type} {Ret : Op → Type} {ε α β ι σ : Type}

/-- What one task is run against, may rely on, and has to keep to. -/
structure Contract (Op : Type) (Ret : Op → Type) (ι σ : Type) where
  handle : (op : Op) → ι → σ → Option (σ × Ret op)
  rely : σ → σ → Prop
  allows : Op → ι → σ → Prop
  requires : Op → σ → Prop
  guarantee : σ → σ → Prop

/-- Started in `s`, the task keeps to the contract; if it returns, `Q` holds, and if it
    throws, `E` holds.  Before each of its operations the others may move by `rely`. -/
def Sat (c : Contract Op Ret ι σ) : Fiber Op Ret ε α → (α → σ → Prop) → (ε → σ → Prop) → σ → Prop
  | .done a, Q, _, s => Q a s
  | .fail e, _, E, s => E e s
  | .call op next, Q, E, s => ∀ s₁, c.rely s s₁ → c.requires op s₁ ∧
      ∀ i s₂ r, c.allows op i s₁ → c.handle op i s₁ = some (s₂, r) →
        c.guarantee s₁ s₂ ∧ Sat c (next r) Q E s₂

variable {c : Contract Op Ret ι σ} {Q : α → σ → Prop} {E : ε → σ → Prop} {s : σ}

@[simp] theorem sat_pure (a : α) : Sat c (pure a : Fiber Op Ret ε α) Q E s ↔ Q a s := Iff.rfl

@[simp] theorem sat_throw (e : ε) : Sat c (throw e : Fiber Op Ret ε α) Q E s ↔ E e s := Iff.rfl

/-- One operation: the state may have moved, the operation must be in order there, and its
    step must keep the guarantee. -/
theorem sat_perform {op : Op} {Q : Ret op → σ → Prop} :
    Sat c (Fiber.perform op : Fiber Op Ret ε (Ret op)) Q E s ↔
      ∀ s₁, c.rely s s₁ → c.requires op s₁ ∧
        ∀ i s₂ r, c.allows op i s₁ → c.handle op i s₁ = some (s₂, r) →
          c.guarantee s₁ s₂ ∧ Q r s₂ := Iff.rfl

@[simp] theorem sat_bind {Q : β → σ → Prop} (t : Fiber Op Ret ε α) (f : α → Fiber Op Ret ε β) :
    Sat c (t >>= f) Q E s ↔ Sat c t (fun a s' => Sat c (f a) Q E s') E s := by
  show Sat c (Fiber.bind t f) Q E s ↔ _
  induction t generalizing s with
  | done a => exact Iff.rfl
  | fail e => exact Iff.rfl
  | call op next ih => simp only [Fiber.bind, Sat, ih]

@[simp] theorem sat_tryCatch (t : Fiber Op Ret ε α) (handler : ε → Fiber Op Ret ε α) :
    Sat c (tryCatch t handler) Q E s ↔ Sat c t Q (fun e s' => Sat c (handler e) Q E s') s := by
  show Sat c (Fiber.catching t handler) Q E s ↔ _
  induction t generalizing s with
  | done a => exact Iff.rfl
  | fail e => exact Iff.rfl
  | call op next ih => simp only [Fiber.catching, Sat, ih]

theorem sat_ite {p : Prop} [Decidable p] {t u : Fiber Op Ret ε α} :
    Sat c (if p then t else u) Q E s ↔ (p → Sat c t Q E s) ∧ (¬ p → Sat c u Q E s) := by
  by_cases hp : p <;> simp [hp]

theorem sat_ofExcept {x : Except ε α} :
    Sat c (Fiber.ofExcept x : Fiber Op Ret ε α) Q E s ↔
      (∀ a, x = .ok a → Q a s) ∧ (∀ e, x = .error e → E e s) := by
  cases x with
  | ok a => simp [Fiber.ofExcept, Sat]
  | error e => simp [Fiber.ofExcept, Sat]

theorem sat_raising {t : Fiber Op Ret ε (Except ε α)} :
    Sat c (Fiber.raising t) Q E s ↔ Sat c t (fun x s' =>
      (∀ a, x = .ok a → Q a s') ∧ (∀ e, x = .error e → E e s')) E s := by
  unfold Fiber.raising
  rw [sat_bind]
  simp only [sat_ofExcept]

/-- Weaker ends are met as well. -/
theorem sat_mono {Q' : α → σ → Prop} {E' : ε → σ → Prop} {t : Fiber Op Ret ε α}
    (h : Sat c t Q E s) (hQ : ∀ a s', Q a s' → Q' a s') (hE : ∀ e s', E e s' → E' e s') :
    Sat c t Q' E' s := by
  induction t generalizing s with
  | done a => exact hQ a s h
  | fail e => exact hE e s h
  | call op next ih =>
    intro s₁ hr
    obtain ⟨hreq, hstep⟩ := h s₁ hr
    refine ⟨hreq, ?_⟩
    intro i s₂ r ha hh
    obtain ⟨hg, hnext⟩ := hstep i s₂ r ha hh
    exact ⟨hg, ih r hnext⟩

/-- **Stability.**  A task that keeps its contract from `s` keeps it from wherever the others
    take the state, if its ends are stable too. -/
theorem sat_stable {t : Fiber Op Ret ε α}
    (htrans : ∀ a b d, c.rely a b → c.rely b d → c.rely a d)
    (hQ : ∀ a s s', c.rely s s' → Q a s → Q a s') (hE : ∀ e s s', c.rely s s' → E e s → E e s')
    {s' : σ} (hr : c.rely s s') (h : Sat c t Q E s) : Sat c t Q E s' := by
  cases t with
  | done a => exact hQ a s s' hr h
  | fail e => exact hE e s s' hr h
  | call op next =>
    intro s₁ hr₁
    exact h s₁ (htrans s s' s₁ hr hr₁)

/-- A task that only issues operations which keep `I`, keeps `I`. -/
theorem sat_of_all {p : Op → Prop} {I : σ → Prop} {t : Fiber Op Ret ε α}
    (hrely : ∀ s s₁, I s → c.rely s s₁ → I s₁)
    (hop : ∀ op, p op → ∀ s, I s → c.requires op s ∧
      ∀ i s₂ r, c.allows op i s → c.handle op i s = some (s₂, r) → c.guarantee s s₂ ∧ I s₂)
    (ht : t.All p) (hs : I s) : Sat c t (fun _ s' => I s') (fun _ s' => I s') s := by
  induction t generalizing s with
  | done a => exact hs
  | fail e => exact hs
  | call op next ih =>
    intro s₁ hr
    obtain ⟨hreq, hstep⟩ := hop op ht.1 s₁ (hrely s s₁ hs hr)
    refine ⟨hreq, ?_⟩
    intro i s₂ r ha hh
    obtain ⟨hg, hI⟩ := hstep i s₂ r ha hh
    exact ⟨hg, ih r (ht.2 r) hI⟩

/-- **The `for` rule**, with the items already consumed in the invariant. -/
theorem sat_foldlM (f : β → α → Fiber Op Ret ε β) (I : List α → β → σ → Prop) (xs : List α)
    (hstep : ∀ seen x rest acc s, xs = seen ++ x :: rest → I seen acc s →
      Sat c (f acc x) (fun acc' s' => I (seen ++ [x]) acc' s') E s)
    (acc : β) (s : σ) (h0 : I [] acc s) :
    Sat c (xs.foldlM f acc) (fun acc' s' => I xs acc' s') E s := by
  suffices key : ∀ rest seen acc s, xs = seen ++ rest → I seen acc s →
      Sat c (rest.foldlM f acc) (fun acc' s' => I xs acc' s') E s from
    key xs [] acc s rfl h0
  intro rest
  induction rest with
  | nil =>
    intro seen acc s hxs hI
    rw [List.append_nil] at hxs
    subst hxs
    exact hI
  | cons x rest ih =>
    intro seen acc s hxs hI
    rw [List.foldlM_cons, sat_bind]
    refine sat_mono (hstep seen x rest acc s hxs hI) ?_ (fun _ _ h => h)
    intro acc' s' hI'
    exact ih (seen ++ [x]) acc' s' (by simp [hxs]) hI'

end Contracts

/-! ## §3. Pools of tasks. -/

section Pools

variable {κ Call Op : Type} {Ret : Op → Type} {ε α ι σ : Type} [DecidableEq κ]

/-- The shared state, and for each owner the call it is in and what is left of it. -/
structure Pool (κ Call Op : Type) (Ret : Op → Type) (ε α σ : Type) where
  shared : σ
  tasks : κ → Option (Call × Fiber Op Ret ε α)

/-- The call an owner is in, and the operation it performs next. -/
def Pool.doing (p : Pool κ Call Op Ret ε α σ) (k : κ) : Option (Call × Option Op) :=
  (p.tasks k).map fun task => (task.1, task.2.next?)

/-- An owner without a running task starts a call, a task performs its next operation, or an
    owner's task is dropped where it stands. -/
inductive PoolEvent (κ Call ι : Type) where
  | start (k : κ) (call : Call)
  | advance (k : κ) (input : ι)
  | drop (k : κ)

variable (program : κ → Call → Fiber Op Ret ε α) (begin : κ → Call → σ → σ)
  (handle : κ → Call → (op : Op) → ι → σ → Option (σ × Ret op))

/-- May the owner start another call? -/
def idle (task : Option (Call × Fiber Op Ret ε α)) : Bool :=
  match task with
  | none => true
  | some (_, t) => t.ended

def Pool.step (p : Pool κ Call Op Ret ε α σ) :
    PoolEvent κ Call ι → Option (Pool κ Call Op Ret ε α σ)
  | .start k call =>
    if idle (p.tasks k) then
      some
        { shared := begin k call p.shared
          tasks := Function.update p.tasks k (some (call, program k call)) }
    else none
  | .advance k input =>
    match p.tasks k with
    | some (call, .call op next) =>
      match handle k call op input p.shared with
      | some (s', r) =>
        some { shared := s', tasks := Function.update p.tasks k (some (call, next r)) }
      | none => none
    | _ => none
  | .drop k => some { p with tasks := Function.update p.tasks k none }

variable {program begin handle}

theorem step_start {p p' : Pool κ Call Op Ret ε α σ} {k : κ} {call : Call}
    (h : Pool.step program begin handle p (.start k call) = some p') :
    p' = { shared := begin k call p.shared
           tasks := Function.update p.tasks k (some (call, program k call)) } := by
  unfold Pool.step at h
  dsimp only at h
  split at h
  · exact (Option.some.inj h).symm
  · cases h

/-- What an `advance` does: the owner is in the middle of a call, and its next operation is
    handled. -/
theorem step_advance {p p' : Pool κ Call Op Ret ε α σ} {k : κ} {input : ι}
    (h : Pool.step program begin handle p (.advance k input) = some p') :
    ∃ call op next s' r, p.tasks k = some (call, .call op next) ∧
      handle k call op input p.shared = some (s', r) ∧
      p' = { shared := s', tasks := Function.update p.tasks k (some (call, next r)) } := by
  unfold Pool.step at h
  dsimp only at h
  cases ht : p.tasks k with
  | none =>
    rw [ht] at h
    cases h
  | some current =>
    obtain ⟨call, t⟩ := current
    rw [ht] at h
    cases t with
    | done a => cases h
    | fail e => cases h
    | call op next =>
      dsimp only at h
      cases hh : handle k call op input p.shared with
      | none =>
        rw [hh] at h
        cases h
      | some out =>
        obtain ⟨s', r⟩ := out
        rw [hh] at h
        exact ⟨call, op, next, s', r, rfl, hh, (Option.some.inj h).symm⟩

/-- After one owner's entry was replaced, an entry is the new one or one that was there. -/
theorem update_entry {T : Type} {tasks : κ → Option T} {k k' : κ} {entry : Option T} {x : T}
    (h : Function.update tasks k entry k' = some x) :
    (k' = k ∧ entry = some x) ∨ (k' ≠ k ∧ tasks k' = some x) := by
  by_cases hk : k' = k
  · subst hk
    rw [Function.update_self] at h
    exact .inl ⟨rfl, h⟩
  · rw [Function.update_of_ne hk] at h
    exact .inr ⟨hk, h⟩

/-- What a family of tasks keeps to together: one contract per owner and call, an invariant of
    the shared state, and the ends of each call. -/
structure Discipline (κ Call Op : Type) (Ret : Op → Type) (ε α ι σ : Type) where
  contract : κ → Call → Contract Op Ret ι σ
  inv : σ → Prop
  /-- Which calls may be started in which state. -/
  may : κ → Call → σ → Prop
  returns : κ → Call → α → σ → Prop
  throws : κ → Call → ε → σ → Prop

/-- The events a run under the discipline is made of. -/
def Discipline.Permits (d : Discipline κ Call Op Ret ε α ι σ) (p : Pool κ Call Op Ret ε α σ) :
    PoolEvent κ Call ι → Prop
  | .start k call => d.may k call p.shared
  | .advance k input => ∀ call op next, p.tasks k = some (call, .call op next) →
      (d.contract k call).allows op input p.shared
  | .drop _ => True

/-- The invariant holds, and every task in the pool keeps its contract from here on. -/
structure Discipline.Holds (d : Discipline κ Call Op Ret ε α ι σ)
    (p : Pool κ Call Op Ret ε α σ) : Prop where
  inv : d.inv p.shared
  sat : ∀ k call t, p.tasks k = some (call, t) →
    Sat (d.contract k call) t (d.returns k call) (d.throws k call) p.shared

/-- What has to be proved of a discipline, task by task. -/
structure Discipline.Sound (d : Discipline κ Call Op Ret ε α ι σ)
    (program : κ → Call → Fiber Op Ret ε α) (begin : κ → Call → σ → σ)
    (handle : κ → Call → (op : Op) → ι → σ → Option (σ × Ret op)) : Prop where
  handled : ∀ k call op i s, (d.contract k call).handle op i s = handle k call op i s
  rely_refl : ∀ k call s, d.inv s → (d.contract k call).rely s s
  rely_trans : ∀ k call a b e, (d.contract k call).rely a b → (d.contract k call).rely b e →
    (d.contract k call).rely a e
  /-- A step of one task is something every other task expected. -/
  others : ∀ k call k' call' s s', k ≠ k' → d.inv s → (d.contract k call).guarantee s s' →
    (d.contract k' call').rely s s'
  keeps : ∀ k call s s', d.inv s → (d.contract k call).guarantee s s' → d.inv s'
  returns_stable : ∀ k call a s s', (d.contract k call).rely s s' →
    d.returns k call a s → d.returns k call a s'
  throws_stable : ∀ k call e s s', (d.contract k call).rely s s' →
    d.throws k call e s → d.throws k call e s'
  begins : ∀ k call s, d.inv s → d.may k call s → d.inv (begin k call s) ∧
    ∀ k' call', k ≠ k' → (d.contract k' call').rely s (begin k call s)
  program_sat : ∀ k call s, d.inv s → d.may k call s →
    Sat (d.contract k call) (program k call) (d.returns k call) (d.throws k call)
      (begin k call s)

section Soundness

variable {d : Discipline κ Call Op Ret ε α ι σ}

omit [DecidableEq κ] in
/-- A task in the pool whose owner did not move is still in order. -/
theorem Discipline.Sound.sat_other (hd : d.Sound program begin handle) {k' : κ} {call' : Call}
    {t : Fiber Op Ret ε α} {s s' : σ} (hr : (d.contract k' call').rely s s')
    (h : Sat (d.contract k' call') t (d.returns k' call') (d.throws k' call') s) :
    Sat (d.contract k' call') t (d.returns k' call') (d.throws k' call') s' :=
  sat_stable (hd.rely_trans k' call') (hd.returns_stable k' call') (hd.throws_stable k' call') hr h

omit [DecidableEq κ] in
/-- A change of the shared state from outside the pool, which every task expected. -/
theorem Discipline.Sound.outside (hd : d.Sound program begin handle)
    {p : Pool κ Call Op Ret ε α σ} {s' : σ} (hp : d.Holds p) (hinv : d.inv s')
    (hrely : ∀ k call, (d.contract k call).rely p.shared s') : d.Holds { p with shared := s' } := by
  constructor
  · exact hinv
  · intro k call t ht
    exact hd.sat_other (hrely k call) (hp.sat k call t ht)

/-- One permitted event of the pool. -/
theorem Discipline.Sound.step (hd : d.Sound program begin handle)
    {p p' : Pool κ Call Op Ret ε α σ} {e : PoolEvent κ Call ι} (hp : d.Holds p)
    (hok : d.Permits p e) (h : Pool.step program begin handle p e = some p') : d.Holds p' := by
  cases e with
  | start k call =>
    obtain rfl := step_start h
    obtain ⟨hinv, hrely⟩ := hd.begins k call p.shared hp.inv hok
    constructor
    · exact hinv
    · intro k' call' t ht
      obtain ⟨rfl, hentry⟩ | ⟨hk, hold⟩ := update_entry ht
      · obtain ⟨rfl, rfl⟩ := Prod.mk.inj (Option.some.inj hentry)
        exact hd.program_sat k' call p.shared hp.inv hok
      · exact hd.sat_other (hrely k' call' (Ne.symm hk)) (hp.sat k' call' t hold)
  | advance k input =>
    obtain ⟨call, op, next, s', r, htask, hh, rfl⟩ := step_advance h
    have hsat := hp.sat k call _ htask
    obtain ⟨-, hnext⟩ := hsat p.shared (hd.rely_refl k call p.shared hp.inv)
    rw [← hd.handled k call] at hh
    obtain ⟨hg, hrest⟩ := hnext input s' r (hok call op next htask) hh
    constructor
    · exact hd.keeps k call p.shared s' hp.inv hg
    · intro k' call' t ht
      obtain ⟨rfl, hentry⟩ | ⟨hk, hold⟩ := update_entry ht
      · obtain ⟨rfl, rfl⟩ := Prod.mk.inj (Option.some.inj hentry)
        exact hrest
      · exact hd.sat_other (hd.others k call k' call' p.shared s' (Ne.symm hk) hp.inv hg)
          (hp.sat k' call' t hold)
  | drop k =>
    obtain rfl := Option.some.inj h
    constructor
    · exact hp.inv
    · intro k' call' t ht
      obtain ⟨-, hentry⟩ | ⟨-, hold⟩ := update_entry ht
      · cases hentry
      · exact hp.sat k' call' t hold

/-- **Tasks that each keep a sound contract keep it together**, in every permitted run. -/
theorem pool_invariant (hd : d.Sound program begin handle) (events : List (PoolEvent κ Call ι))
    {p p' : Pool κ Call Op Ret ε α σ} (hp : d.Holds p)
    (hok : Throughout (Pool.step program begin handle) d.Permits p events)
    (hrun : run (Pool.step program begin handle) p events = some p') : d.Holds p' :=
  run_invariant (fun _ _ _ hI hperm hs => hd.step hI hperm hs) events p p' hp hok hrun

omit [DecidableEq κ] in
/-- In a pool that is in order, the next operation of every task is. -/
theorem Discipline.Holds.requires (hd : d.Sound program begin handle)
    {p : Pool κ Call Op Ret ε α σ} (hp : d.Holds p) {k : κ} {call : Call} {op : Op}
    (h : p.doing k = some (call, some op)) : (d.contract k call).requires op p.shared := by
  unfold Pool.doing at h
  cases ht : p.tasks k with
  | none =>
    rw [ht] at h
    cases h
  | some task =>
    obtain ⟨call', t⟩ := task
    rw [ht] at h
    obtain ⟨rfl, hnext⟩ := Prod.mk.inj (Option.some.inj h)
    cases t with
    | done a => cases hnext
    | fail e => cases hnext
    | call op' next =>
      obtain rfl := Option.some.inj hnext
      exact (hp.sat k call' _ ht p.shared (hd.rely_refl k call' p.shared hp.inv)).1

end Soundness

end Pools

end My98.Lib
