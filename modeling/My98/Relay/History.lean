/-
  My98.Relay.History — what the log of the relay daemon says.

  `allowOf` reads the allow set off the log, and `Good` says what must be in the log BEFORE an
  entry may be added.  A log whose entries were all good when they were added is `Sound`; every
  statement about the order of events is read off a sound log, without the states in between.

    • `Sound.good`             — an entry was good for what is older than it;
    • `not_mem_allowOf`        — a revoked key stays out until it is allowed again;
    • `Sound.not_registered`   — and no session of it registers.
-/
import Mathlib.Data.Finset.Basic
import Mathlib.Algebra.Order.Ring.Nat
import Mathlib.Tactic.Common
import My98.Relay.Daemon

namespace My98.Relay

open My98.Lib

/-! ## §1. Reading the log. -/

/-- The allow set, from the keys the daemon started with and the changes since. -/
def allowOf (keys : Finset String) : List Entry → Finset String
  | [] => keys
  | .allowed _ text :: older => insert text (allowOf keys older)
  | .revoked _ text :: older => (allowOf keys older).erase text
  | _ :: older => allowOf keys older

/-- Entries that concern neither the allow set nor the active map. -/
def Entry.plain : Entry → Bool
  | .allowed _ _ | .revoked _ _ | .registered _ _ _ | .dropped _ => false
  | _ => true

/-- The frame was checked and no frame of the connection was passed since. -/
def Unspent (c : Nat) (text : String) (direction : Direction) (frame : Bytes) (log : List Entry) :
    Prop :=
  ∃ newer older, log = newer ++ .checked c text direction frame :: older ∧
    ∀ direction' frame', Entry.passed c direction' frame' ∉ newer

/-- What an entry stands on. -/
def Good (keys : Finset String) (older : List Entry) : Entry → Prop
  | .allowed _ text => ∃ rest, older = .saved (insert text (allowOf keys older)) :: rest
  | .revoked _ text => ∃ rest, older = .saved ((allowOf keys older).erase text) :: rest
  | .answered task request =>
    request.command = "revoke" → .revoked task request.publicKey ∈ older
  | .challenged c text origin _ _ => text ∈ allowOf keys older ∧ .upgraded c origin ∈ older
  | .proved c text origin nonce expires now =>
    now < expires ∧ .challenged c text origin nonce expires ∈ older
  | .registered c _ text => text ∈ allowOf keys older ∧
      ∃ origin nonce expires now, .proved c text origin nonce expires now ∈ older
  | .checked c text _ _ => text ∈ allowOf keys older ∧ ∃ id, .registered c id text ∈ older
  | .passed c direction frame =>
    .stopped c ∉ older ∧ ∃ text, Unspent c text direction frame older
  | _ => True

def Sound (keys : Finset String) : List Entry → Prop
  | [] => True
  | entry :: older => Good keys older entry ∧ Sound keys older

/-! ## §2. What a sound log shows. -/

section Logs

variable {keys : Finset String} {entry : Entry} {log newer older : List Entry} {text : String}

theorem allowOf_plain (h : entry.plain = true) :
    allowOf keys (entry :: older) = allowOf keys older := by
  cases entry with
  | allowed _ _ => cases h
  | revoked _ _ => cases h
  | _ => rfl

theorem Sound.append (h : Sound keys (newer ++ older)) : Sound keys older := by
  induction newer with
  | nil => exact h
  | cons _ _ ih => exact ih h.2

theorem Sound.good (h : Sound keys (newer ++ entry :: older)) : Good keys older entry :=
  (Sound.append h).1

/-- **Revoked until allowed.**  The induction goes down from the newest entry; the revocation is the
    last one that is reached. -/
theorem not_mem_allowOf {task : Nat} (h : ∀ task', Entry.allowed task' text ∉ newer) :
    text ∉ allowOf keys (newer ++ .revoked task text :: older) := by
  induction newer with
  | nil => exact Finset.notMem_erase text _
  | cons entry newer ih =>
    have hrest : text ∉ allowOf keys (newer ++ .revoked task text :: older) :=
      ih fun task' hmem => h task' (List.mem_cons_of_mem _ hmem)
    cases entry with
    | allowed task' text' =>
      intro hmem
      rcases Finset.mem_insert.mp hmem with heq | hmem
      · exact h task' (heq ▸ List.mem_cons_self)
      · exact hrest hmem
    | revoked task' text' => exact fun hmem => hrest (Finset.mem_of_mem_erase hmem)
    | _ => exact hrest

theorem Sound.not_registered {task : Nat}
    (hsound : Sound keys (newer ++ .revoked task text :: older))
    (h : ∀ task', Entry.allowed task' text ∉ newer) (c id : Nat) :
    Entry.registered c id text ∉ newer := by
  intro hmem
  obtain ⟨later, earlier, rfl⟩ := List.append_of_mem hmem
  rw [List.append_assoc, List.cons_append] at hsound
  have hallowed := hsound.good.1
  refine not_mem_allowOf ?_ hallowed
  exact fun task' hearlier =>
    h task' (List.mem_append_right later (List.mem_cons_of_mem _ hearlier))

theorem Unspent.append {c : Nat} {direction : Direction} {frame : Bytes}
    (h : Unspent c text direction frame log)
    (hnewer : ∀ direction' frame', Entry.passed c direction' frame' ∉ newer) :
    Unspent c text direction frame (newer ++ log) := by
  obtain ⟨later, older, rfl, hlater⟩ := h
  refine ⟨newer ++ later, older, (List.append_assoc ..).symm, ?_⟩
  intro direction' frame' hmem
  rcases List.mem_append.mp hmem with hmem | hmem
  · exact hnewer direction' frame' hmem
  · exact hlater direction' frame' hmem

end Logs

end My98.Relay
