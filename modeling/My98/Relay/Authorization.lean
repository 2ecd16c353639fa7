/-
  My98.Relay.Authorization — what the relay's allow set and active map guarantee.

  Everything here is read off the invariant: the shared tables are tied to the log, and the log is
  sound, so an order of events is an order of entries.

    • `Revoked`       — what a revocation leaves behind, from the moment it is done;
    • `Forwarded`     — a frame goes where a check of its own let it go;
    • `authorization` — both, and the shape of the map, in every state of every run.
-/
import Mathlib.Data.Finset.Basic
import Mathlib.Algebra.Order.Ring.Nat
import Mathlib.Tactic.Common
import My98.Crypto.Plain
import My98.Relay.Invariant

namespace My98.Relay

open My98.Lib My98.Crypto

/-! ## §1. What is guaranteed. -/

/-- A line that is not a request: unreadable, of another command, or with a key that is none. -/
def Malformed : Option Admin → Prop
  | none => True
  | some a => (a.command ≠ "status" ∧ a.command ≠ "allow" ∧ a.command ≠ "revoke") ∨
      (a.command ≠ "status" ∧ key a.publicKey = .error "Invalid public key")

/-- `text` was revoked between `older` and `newer`. -/
structure Revoked (s : State) (newer : List Entry) (text : String) (older : List Entry) : Prop where
  cancelled : ∀ c id, .registered c id text ∈ older → id ∈ s.cancelled ∨ .dropped id ∈ older
  out : (∀ task, .allowed task text ∉ newer) →
    text ∉ s.allow ∧ ∀ c id, .registered c id text ∉ newer

/-- A frame that was passed after `older`: it has a check to itself, made by a registered session
    whose key was in the allow set, and the cancelled branch was not taken. -/
structure Forwarded (keys : Finset String) (c : Nat) (direction : Direction) (frame : Bytes)
    (older : List Entry) : Prop where
  running : .stopped c ∉ older
  checked : ∃ since text before, older = since ++ .checked c text direction frame :: before ∧
    text ∈ allowOf keys before ∧ (∃ id, .registered c id text ∈ before) ∧
    ∀ direction' frame', Entry.passed c direction' frame' ∉ since

/-- What holds of a state that a run reaches. -/
structure Authorized (config : Config) (P : Primitives) (keys : Finset String) (s : State) :
    Prop where
  guarded : ∀ e ∈ s.active, e.2 ∈ s.allow ∨ e.1 ∈ s.cancelled
  distinct : (s.active.map Prod.fst).Nodup
  four : s.active.length ≤ 4
  history : s.allow = allowOf keys s.log
  /-- A request that is none, or that cannot be saved, changes nothing. -/
  refused : ∀ line saving s', Malformed line ∨ saving ≠ .done →
    step config P s (.admin line saving) = some s' → s'.allow = s.allow ∧ s'.active = s.active ∧
      s'.cancelled = s.cancelled ∧ s'.sessions = s.sessions ∧ s'.conns = s.conns
  /-- The file is written first. -/
  written : ∀ event s', step config P s event = some s' → s'.allow ≠ s.allow →
    s'.file = s'.allow ∧ ∃ entry, s'.log = entry :: .saved s'.allow :: s.log
  revoked : ∀ newer task request older, request.command = "revoke" →
    s.log = newer ++ .answered task request :: older →
    ∃ since before, older = since ++ .revoked task request.publicKey :: before ∧
      Revoked s (newer ++ .answered task request :: since) request.publicKey before
  passed : ∀ newer c direction frame older, s.log = newer ++ .passed c direction frame :: older →
    Forwarded keys c direction frame older

/-! ## §2. The steps that change the set. -/

section Results

variable {config : Config} {P : Primitives} {keys : Finset String} {s s' : State}

/-- What an admin line does to the set and the map: nothing, or what it asks for after saving. -/
theorem admin_cases (line : Option Admin) (saving : Saving) :
    ((admin s line saving).allow = s.allow ∧ (admin s line saving).active = s.active ∧
      (admin s line saving).cancelled = s.cancelled ∧
      (admin s line saving).sessions = s.sessions ∧ (admin s line saving).conns = s.conns) ∨
    (¬ Malformed line ∧ saving = .done ∧
      (admin s line saving).file = (admin s line saving).allow ∧
      ∃ entry, (admin s line saving).log = entry :: .saved (admin s line saving).allow :: s.log) := by
  unfold admin
  cases line with
  | none => exact .inl ⟨rfl, rfl, rfl, rfl, rfl⟩
  | some a =>
    dsimp only
    split
    · exact .inl ⟨rfl, rfl, rfl, rfl, rfl⟩
    next hstatus =>
      split
      next hcommand =>
        cases hkey : key a.publicKey with
        | error m => exact .inl ⟨rfl, rfl, rfl, rfl, rfl⟩
        | ok bytes =>
          cases saving with
          | unwritten => exact .inl ⟨rfl, rfl, rfl, rfl, rfl⟩
          | unsynced => exact .inl ⟨rfl, rfl, rfl, rfl, rfl⟩
          | done =>
            refine .inr ⟨?_, rfl, rfl, _, rfl⟩
            rintro (⟨-, hallow, hrevoke⟩ | ⟨-, hinvalid⟩)
            · exact hcommand.elim hallow hrevoke
            · rw [hkey] at hinvalid
              cases hinvalid
      · exact .inl ⟨rfl, rfl, rfl, rfl, rfl⟩

theorem step_written {e : Event} (hs : step config P s e = some s') (hne : s'.allow ≠ s.allow) :
    s'.file = s'.allow ∧ ∃ entry, s'.log = entry :: .saved s'.allow :: s.log := by
  cases e with
  | admin line saving =>
    obtain rfl := Option.some.inj hs
    rcases admin_cases (s := s) line saving with hsame | hchanged
    · exact absurd hsame.1 hne
    · exact hchanged.2.2
  | reply task sent =>
    simp only [step] at hs
    split at hs
    · cases hs
    · obtain rfl := Option.some.inj hs
      exact absurd rfl hne
  | sign text url origin nonce expires =>
    obtain rfl := Option.some.inj hs
    exact absurd rfl hne
  | _ =>
    simp only [step] at hs
    exact absurd (connection_touches rfl hs).allow hne

/-! ## §3. Reading the invariant. -/

theorem Inv.revoked (h : Inv keys s) {newer older : List Entry} {task : Nat} {text : String}
    (hlog : s.log = newer ++ .revoked task text :: older) : Revoked s newer text older where
  cancelled := h.shared.flagged newer task text older hlog
  out := by
    intro hnone
    have hsound := h.shared.sound
    rw [hlog] at hsound
    refine ⟨?_, hsound.not_registered hnone⟩
    rw [h.shared.allow, hlog]
    exact not_mem_allowOf hnone

theorem Inv.forwarded (h : Inv keys s) {newer older : List Entry} {c : Nat}
    {direction : Direction} {frame : Bytes}
    (hlog : s.log = newer ++ .passed c direction frame :: older) :
    Forwarded keys c direction frame older := by
  have hsound := h.shared.sound
  rw [hlog] at hsound
  obtain ⟨hstopped, text, since, before, rfl, hsince⟩ := hsound.good
  rw [← List.cons_append, ← List.append_assoc] at hsound
  have hchecked : Good keys before (.checked c text direction frame) := hsound.good
  exact ⟨hstopped, since, text, before, rfl, hchecked.1, hchecked.2, hsince⟩

/-- **Relay authorization.** -/
theorem authorization {events : List Event}
    (h : run (step config P) (start keys) events = some s) : Authorized config P keys s := by
  have hinv := inv_run h
  exact
    { guarded := hinv.shared.guarded
      distinct := hinv.shared.distinct
      four := hinv.shared.four
      history := hinv.shared.allow
      refused := by
        intro line saving s' hbad hs
        obtain rfl := Option.some.inj hs
        rcases admin_cases (s := s) line saving with hsame | ⟨hformed, hdone, -⟩
        · exact hsame
        · exact absurd hbad (not_or.mpr ⟨hformed, not_not.mpr hdone⟩)
      written := fun _ _ hs hne => step_written hs hne
      revoked := by
        intro newer task request older hrevoke hlog
        have hsound := hinv.shared.sound
        rw [hlog] at hsound
        obtain ⟨since, before, rfl⟩ := List.append_of_mem (hsound.good hrevoke)
        have hall : s.log = (newer ++ .answered task request :: since) ++
            .revoked task request.publicKey :: before := by
          rw [hlog, List.append_assoc, List.cons_append]
        exact ⟨since, before, rfl, hinv.revoked hall⟩
      passed := fun _ _ _ _ _ hlog => hinv.forwarded hlog }

end Results

/-! ## §4. A run. -/

def demoKey : String := hex (zeros 32).val

def demoConfig : Config where
  publicUrl := "wss://relay/my98-relay/v1"
  origins := {"https://my98"}
  hostIps := []

/-- A question about a name, to the virtual server. -/
def demoFrame : Bytes :=
  List.replicate 12 0 ++ [8, 0, 0x45, 0, 0, 28, 0, 0, 0, 0, 64, 17, 0, 0, 10, 5, 0, 2, 10, 5, 0, 1,
    4, 0, 0, 53, 0, 8, 0, 0]

/-- One session: it is admitted, passes a frame, and is revoked. -/
def demoRun : List Event :=
  [.accept 0, .upgrade 0 relayPath "https://my98" PROTOCOL,
    .hello 0 (some (.obj [("type", .str "hello"), ("publicKey", .str demoKey)])) (zeros 32) 100,
    .authenticate 0 (some (.obj [("type", .str "authenticate"),
      ("signature", .str (hex (zeros 64).val))])) 105,
    .acquire 0, .register 0, .look 0, .ready 0, .select 0, .incoming 0 demoFrame, .pass 0 true,
    .admin (some ⟨"revoke", demoKey⟩) .done, .reply 0 true, .select 0]

theorem demo_authorized :
    ∃ s, run (step demoConfig plain) (start {demoKey}) demoRun = some s ∧
      (.passed 0 .input demoFrame ∈ s.log ∧ .stopped 0 ∈ s.log) ∧
        Authorized demoConfig plain {demoKey} s := by
  have hrun : (run (step demoConfig plain) (start {demoKey}) demoRun).any
      (fun s => decide (.passed 0 .input demoFrame ∈ s.log ∧ .stopped 0 ∈ s.log)) = true := by
    decide +kernel
  obtain ⟨s, hs, hlog⟩ := (Option.any_eq_true _ _).mp hrun
  exact ⟨s, hs, of_decide_eq_true hlog, authorization hs⟩

end My98.Relay
