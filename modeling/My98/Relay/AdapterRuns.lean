/-
  My98.Relay.AdapterRuns — what the adapter does in every run (`RelayNetworkAdapter` of
  `src/browser/relay-network.js`).

  The invariants are about sessions only, so each of them goes through the moves of a session.  Most
  hold in whatever order the events come.  The others need that a browser fires nothing on a socket
  before `open` or after `close`.

    • `Sane`          — what holds in whatever order the events come;
    • `Ordered`       — and what else if a socket's events come in the order of the standard;
    • `adapter_runs`  — every run;
    • `order_matters` — runs in another order.
-/
import My98.Crypto.Plain
import My98.Relay.AdapterSession

namespace My98.Relay.Adapter

open My98.Lib My98.Crypto

variable {P : Primitives} {client : Client P}

/-! ## §1. In whatever order the events come. -/

/-- **What holds of every session.** -/
structure Sane (client : Client P) (x : Session) : Prop where
  grounded : Grounded (Lawful client) x.log
  alive : .destroy ∉ x.log
  latest : latest x.log = some x.generation
  waiting : x.wait ≠ .nothing → x.made = none
  socket : x.made.isSome = true → x.socket = some x.generation ∧ .created x.generation x.url ∈ x.log
  created_le : ∀ k url, .created k url ∈ x.log → k ≤ x.generation
  challenge_le : ∀ k message challenge, .challenge k message challenge ∈ x.log → k ≤ x.generation
  uncreated : x.made = none → ∀ url, .created x.generation url ∉ x.log
  unasked : x.made = none ∨ x.phase = .hello →
    ∀ message challenge, .challenge x.generation message challenge ∉ x.log
  signing : x.made.isSome = true → 0 < x.signing →
    ∃ message challenge, .challenge x.generation message challenge ∈ x.log
  authenticated : x.made.isSome = true → x.phase = .authenticated → ∃ message challenge signature,
    [.authenticate x.generation signature, .challenge x.generation message challenge].Sublist x.log
  ready : x.ready = true → x.made.isSome = true ∧ Approved x.generation x.log

/-- An entry that no later one stands on by its absence. -/
def Entry.Quiet : Entry → Prop
  | .attempt _ => False
  | .destroy => False
  | .created _ _ => False
  | .challenge _ _ _ => False
  | _ => True

/-- A quiet entry begins no attempt. -/
theorem latest_quiet {e : Entry} (he : e.Quiet) (log : List Entry) : latest (e :: log) = latest log := by
  cases e with
  | attempt k => exact he.elim
  | destroy => exact he.elim
  | created k url => exact he.elim
  | challenge k message challenge => exact he.elim
  | _ => rfl

/-- What was approved stays approved. -/
theorem Approved.cons {k : Nat} {log : List Entry} (h : Approved k log) (e : Entry) : Approved k (e :: log) := by
  obtain ⟨message, challenge, signature, hsub⟩ := h
  exact ⟨message, challenge, signature, hsub.cons e⟩

section Sanity

variable {x x' : Session}

/-- A quiet entry that stands on what it needs is added to the log. -/
theorem Sane.push (h : Sane client x) {e : Entry} (he : e.Quiet) (hgood : Lawful client x.log e) :
    Sane client { x with log := e :: x.log } := by
  have hother : ∀ {f : Entry}, ¬f.Quiet → f ∈ e :: x.log → f ∈ x.log := fun hloud hmem =>
    (List.mem_cons.mp hmem).resolve_left fun heq => hloud (heq ▸ he)
  exact
    { h with
      grounded := ⟨hgood, h.grounded⟩
      alive := fun hmem => h.alive (hother id hmem)
      latest := (latest_quiet he x.log).trans h.latest
      socket := fun hmade => ⟨(h.socket hmade).1, List.mem_cons_of_mem e (h.socket hmade).2⟩
      created_le := fun k url hmem => h.created_le k url (hother id hmem)
      challenge_le := fun k message challenge hmem => h.challenge_le k message challenge (hother id hmem)
      uncreated := fun hmade url hmem => h.uncreated hmade url (hother id hmem)
      unasked := fun hnot message challenge hmem => h.unasked hnot message challenge (hother id hmem)
      signing := fun hmade hpos => by
        obtain ⟨message, challenge, hmem⟩ := h.signing hmade hpos
        exact ⟨message, challenge, List.mem_cons_of_mem e hmem⟩
      authenticated := fun hmade hphase => by
        obtain ⟨message, challenge, signature, hsub⟩ := h.authenticated hmade hphase
        exact ⟨message, challenge, signature, hsub.cons e⟩
      ready := fun hready => ⟨(h.ready hready).1, (h.ready hready).2.cons e⟩ }

/-- A rejected socket asks for nothing more. -/
theorem Sane.reject (h : Sane client x) : Sane client { x with phase := .rejected } :=
  { h with
    unasked := fun hnot => h.unasked (Or.inl (hnot.resolve_right fun hno => by cases hno))
    authenticated := fun _ hno => by cases hno }

/-- The signer has answered once more. -/
theorem Sane.settled (h : Sane client x) : Sane client { x with signing := x.signing - 1 } :=
  { h with signing := fun hmade hpos => h.signing hmade (hpos.trans_le (Nat.sub_le _ _)) }

/-- A session that begins. -/
theorem sane_attempt (hgrounded : Grounded (Lawful client) x.log) (halive : .destroy ∉ x.log)
    (hcreated : ∀ k url, .created k url ∈ x.log → k ≤ x.generation)
    (hchallenge : ∀ k message challenge, .challenge k message challenge ∈ x.log → k ≤ x.generation)
    (phase : ClientPhase) (readyState : ReadyState) (signing : Nat) :
    Sane client (x.attempt phase readyState signing) := by
  have hother : ∀ {f : Entry}, f ∈ Entry.attempt (x.generation + 1) :: x.log → (∀ k, f ≠ .attempt k) →
      f ∈ x.log := fun hmem hne => (List.mem_cons.mp hmem).resolve_left (hne _)
  exact
    { grounded := ⟨⟨halive, trivial⟩, hgrounded⟩
      alive := fun hmem => halive (hother hmem fun k heq => by cases heq)
      latest := rfl
      waiting := fun _ => rfl
      socket := fun hno => by cases hno
      created_le := fun k url hmem =>
        (hcreated k url (hother hmem fun k heq => by cases heq)).trans (Nat.le_succ _)
      challenge_le := fun k message challenge hmem =>
        (hchallenge k message challenge (hother hmem fun k heq => by cases heq)).trans (Nat.le_succ _)
      uncreated := fun _ url hmem =>
        absurd (hcreated _ url (hother hmem fun k heq => by cases heq)) (Nat.not_succ_le_self _)
      unasked := fun _ message challenge hmem =>
        absurd (hchallenge _ message challenge (hother hmem fun k heq => by cases heq))
          (Nat.not_succ_le_self _)
      signing := fun hno => by cases hno
      authenticated := fun hno => by cases hno
      ready := fun hno => by cases hno }

/-- An attempt begins, whatever the last one has left behind. -/
theorem Sane.attempt (h : Sane client x) (phase : ClientPhase) (readyState : ReadyState) (signing : Nat) :
    Sane client (x.attempt phase readyState signing) :=
  sane_attempt h.grounded h.alive h.created_le h.challenge_le phase readyState signing

/-- A socket is made for the attempt that waited for its URL. -/
theorem Sane.dial (h : Sane client x) (hwait : x.wait ≠ .nothing) (publicKey : Bytes) (url : String) :
    Sane client (x.dial publicKey url) := by
  have hmade := h.waiting hwait
  have hother : ∀ {f : Entry}, f ∈ Entry.created x.generation url :: x.log →
      (∀ k url, f ≠ .created k url) → f ∈ x.log :=
    fun hmem hne => (List.mem_cons.mp hmem).resolve_left (hne _ _)
  exact
    { grounded := ⟨⟨h.alive, h.latest, h.uncreated hmade⟩, h.grounded⟩
      alive := fun hmem => h.alive (hother hmem fun k url heq => by cases heq)
      latest := h.latest
      waiting := fun hno => absurd rfl hno
      socket := fun _ => ⟨rfl, List.mem_cons_self⟩
      created_le := fun k url' hmem => by
        rcases List.mem_cons.mp hmem with heq | hmem
        · exact (Entry.created.inj heq).1.le
        · exact h.created_le k url' hmem
      challenge_le := fun k message challenge hmem =>
        h.challenge_le k message challenge (hother hmem fun k url heq => by cases heq)
      uncreated := fun hno => by cases hno
      unasked := fun _ message challenge hmem =>
        h.unasked (Or.inl hmade) message challenge (hother hmem fun k url heq => by cases heq)
      signing := fun _ hno => absurd hno (Nat.lt_irrefl 0)
      authenticated := fun _ hno => by cases hno
      ready := fun hready => by
        obtain ⟨hsome, -⟩ := h.ready hready
        rw [hmade] at hsome
        cases hsome }

/-- **A challenge** is accepted once, and for the URL of the attempt. -/
theorem Sane.challenge (h : Sane client x) (hmade : x.made.isSome = true) {message : Json}
    {challenge : Challenge} {now : Int}
    (hmessage : { client with url := x.url }.onMessage x.phase message now = (.signing, some challenge)) :
    Sane client { x with
      phase := .signing, signing := x.signing + 1
      log := .challenge x.generation message challenge :: x.log } := by
  obtain ⟨hphase, hurl, horigin, hurl', horigin'⟩ := onMessage_signing hmessage
  have hother : ∀ {f : Entry}, f ∈ Entry.challenge x.generation message challenge :: x.log →
      (∀ k message challenge, f ≠ .challenge k message challenge) → f ∈ x.log :=
    fun hmem hne => (List.mem_cons.mp hmem).resolve_left (hne _ _ _)
  exact
    { h with
      grounded :=
        ⟨⟨h.alive, h.unasked (Or.inr hphase), x.url, (h.socket hmade).2, hurl, horigin, hurl', horigin'⟩,
          h.grounded⟩
      alive := fun hmem => h.alive (hother hmem fun k m c heq => by cases heq)
      latest := h.latest
      socket := fun _ => ⟨(h.socket hmade).1, List.mem_cons_of_mem _ (h.socket hmade).2⟩
      created_le := fun k url hmem => h.created_le k url (hother hmem fun k m c heq => by cases heq)
      challenge_le := fun k message' challenge' hmem => by
        rcases List.mem_cons.mp hmem with heq | hmem
        · exact (Entry.challenge.inj heq).1.le
        · exact h.challenge_le k message' challenge' hmem
      uncreated := fun hno => by
        rw [show x.made = none from hno] at hmade
        cases hmade
      unasked := fun hno => by
        rcases hno with hno | hno
        · rw [show x.made = none from hno] at hmade
          cases hmade
        · cases hno
      signing := fun _ _ => ⟨message, challenge, List.mem_cons_self⟩
      authenticated := fun _ hno => by cases hno
      ready := fun hready => ⟨hmade, (h.ready hready).2.cons _⟩ }

/-- The signature is sent, for the challenge that was asked for. -/
theorem Sane.authenticate (h : Sane client x) (hpos : 0 < x.signing) (signature : Bytes) :
    Sane client { x with
      phase := .authenticated, signing := x.signing - 1
      log := .authenticate x.generation signature :: x.log } := by
  have hpushed := (h.push (e := .authenticate x.generation signature) trivial ⟨h.alive, trivial⟩).settled
  exact
    { hpushed with
      unasked := fun hno => by
        rcases hno with hno | hno
        · exact hpushed.unasked (Or.inl hno)
        · cases hno
      authenticated := fun hmade _ => by
        obtain ⟨message, challenge, hmem⟩ := h.signing hmade hpos
        exact ⟨message, challenge, signature, (List.singleton_sublist.mpr hmem).cons_cons _⟩ }

/-- **Every move** keeps a session sane. -/
theorem Sane.move (h : Sane client x) {standard : Prop} (hmove : Move client standard x x') :
    Sane client x' := by
  cases hmove with
  | stay => exact h
  -- What begins an attempt leaves nothing of the one before.
  | retry phase readyState signing =>
    exact (h.push (e := .retry) trivial ⟨h.alive, trivial⟩).attempt phase readyState signing
  | again id delay ht phase readyState signing =>
    have hcleared : Sane client { x with timers := without x.timers (some id) } := { h with }
    exact hcleared.attempt phase readyState signing
  | expire id readyState hr => exact { h with }
  | shut => exact { h with }
  | discover publicKey hwait =>
    exact { h with waiting := fun _ => h.waiting (by rw [hwait]; intro hno; cases hno) }
  | dial publicKey url hwait => exact h.dial hwait publicKey url
  | undialled url delay hwait =>
    have hmade := h.waiting hwait
    exact
      { h with
        waiting := fun _ => hmade
        socket := fun hno => by
          have hsome : x.made.isSome = true := hno
          rw [hmade] at hsome
          cases hsome
        ready := fun hno => by cases hno }
  | hello publicKey readyState hmade hopen =>
    exact { h.push (e := .hello x.generation publicKey) trivial ⟨h.alive, trivial⟩ with }
  | violation readyState hmade hopen hclose =>
    exact { (h.push (e := .violation x.generation) trivial ⟨h.alive, trivial⟩).reject with }
  -- Frames pass only once the attempt is ready, which it is after its exchange.
  | deliver frame hready =>
    exact h.push (e := .delivered x.generation frame) trivial ⟨h.alive, h.latest, (h.ready hready).2⟩
  | spill frame hready readyState hclose =>
    exact { (h.push (e := .delivered x.generation frame) trivial
      ⟨h.alive, h.latest, (h.ready hready).2⟩).reject with }
  | challenge message challenge now hmade hopen hmessage => exact h.challenge hmade hmessage
  | ready hmade hphase =>
    obtain ⟨message, challenge, signature, hsub⟩ := h.authenticated hmade hphase
    have hpushed := h.push (e := .ready x.generation) trivial ⟨h.alive, trivial⟩
    exact
      { hpushed with
        unasked := fun hno => by
          rcases hno with hno | hno
          · exact hpushed.unasked (Or.inl hno)
          · cases hno
        authenticated := fun _ hno => by cases hno
        ready := fun _ => ⟨hmade, message, challenge, signature, hsub.cons_cons _⟩ }
  | unsigned readyState hclose => exact { h.reject.settled with }
  | authenticate signature hpos hopen => exact h.authenticate hpos signature
  | late => exact h.settled
  | refused hmade hopen =>
    have hpushed := h.push (e := .refused x.generation) trivial ⟨h.alive, trivial⟩
    exact { hpushed with ready := fun hno => by cases hno }
  | ended hphase => exact { h with ready := fun hno => by cases hno }
  | dropped delay hmade hphase hopen => exact { h with ready := fun hno => by cases hno }
  | send frame k hready hsocket =>
    obtain ⟨hmade, happroved⟩ := h.ready hready
    -- The socket that a frame is sent on is that of the latest attempt.
    have hk : k = x.generation := Option.some.inj (hsocket.symm.trans (h.socket hmade).1)
    rw [hk]
    exact h.push (e := .sent x.generation frame) trivial ⟨h.alive, h.latest, happroved⟩

end Sanity

/-! ## §2. In the order of the standard. -/

/-- **What holds of a session whose events come in order.** -/
structure Ordered (x : Session) : Prop where
  grounded : Grounded Orderly x.log
  armed : ∀ t ∈ x.timers, (isReconnect t = true → x.retryTimer = some t.1) ∧
    (isReconnect t = false → x.authTimer = some t.1)
  one : (x.timers.filter isReconnect).length ≤ 1
  waiting : x.wait ≠ .nothing → x.timers = []
  pending : (∃ t ∈ x.timers, isReconnect t = true) → x.made.isSome = true → x.readyState = .closed
  rejected : x.made.isSome = true → x.phase = .rejected →
    x.readyState = .closing ∨ x.readyState = .closed
  barred : Barred x.log → (∀ t ∈ x.timers, isReconnect t = false) ∧ x.wait = .nothing ∧
    x.made.isSome = true ∧ (x.phase = .rejected ∨ x.readyState = .closed)
  connecting : x.made.isSome = true → x.readyState = .connecting → x.phase = .hello ∧ x.signing = 0
  greeted : x.made.isSome = true → x.readyState = .open → x.phase = .hello →
    ∃ publicKey, .hello x.generation publicKey ∈ x.log
  asked : x.made.isSome = true → x.readyState = .open → 0 < x.signing → ∃ publicKey message challenge,
    [.challenge x.generation message challenge, .hello x.generation publicKey].Sublist x.log
  authenticated : x.made.isSome = true → x.phase = .authenticated →
    ∃ publicKey message challenge signature, [.authenticate x.generation signature,
      .challenge x.generation message challenge, .hello x.generation publicKey].Sublist x.log
  ready : x.ready = true → Exchanged x.generation x.log

/-- A handshake stays in the log. -/
theorem Exchanged.cons {k : Nat} {log : List Entry} (h : Exchanged k log) (e : Entry) :
    Exchanged k (e :: log) := by
  obtain ⟨publicKey, message, challenge, signature, hsub⟩ := h
  exact ⟨publicKey, message, challenge, signature, hsub.cons e⟩

/-- Clearing a timer leaves the others as they are. -/
theorem without_sublist (timers : List (Nat × Alarm)) (id : Option Nat) : (without timers id).Sublist timers :=
  List.filter_sublist

/-- What is left when a timer is cleared. -/
theorem mem_without {timers : List (Nat × Alarm)} {id : Option Nat} {t : Nat × Alarm} :
    t ∈ without timers id ↔ t ∈ timers ∧ some t.1 ≠ id := by
  unfold without
  rw [List.mem_filter, decide_eq_true_eq]

section Order

variable {x x' : Session}

/-- Some timers are cleared. -/
theorem Ordered.fewer (h : Ordered x) {timers : List (Nat × Alarm)} (hsub : timers.Sublist x.timers) :
    Ordered { x with timers } :=
  { h with
    armed := fun t ht => h.armed t (hsub.subset ht)
    one := ((hsub.filter _).length_le).trans h.one
    waiting := fun hwait => by
      rw [h.waiting hwait] at hsub
      exact List.sublist_nil.mp hsub
    pending := fun hsome => by
      obtain ⟨t, ht, hr⟩ := hsome
      exact h.pending ⟨t, hsub.subset ht, hr⟩
    barred := fun hbar => ⟨fun t ht => (h.barred hbar).1 t (hsub.subset ht), (h.barred hbar).2⟩ }

/-- **Both `clearTimeout`** clear whatever is armed. -/
theorem Ordered.cleared (h : Ordered x) : without (without x.timers x.retryTimer) x.authTimer = [] := by
  refine List.eq_nil_iff_forall_not_mem.mpr fun t ht => ?_
  obtain ⟨ht, hauth⟩ := mem_without.mp ht
  obtain ⟨ht, hretry⟩ := mem_without.mp ht
  cases hr : isReconnect t with
  | true => exact hretry ((h.armed t ht).1 hr).symm
  | false => exact hauth ((h.armed t ht).2 hr).symm

/-- When nothing is to reconnect, clearing the timer of the attempt clears them all. -/
theorem Ordered.cleared_auth (h : Ordered x) (hnone : ∀ t ∈ x.timers, isReconnect t = false) :
    without x.timers x.authTimer = [] := by
  refine List.eq_nil_iff_forall_not_mem.mpr fun t ht => ?_
  obtain ⟨ht, hauth⟩ := mem_without.mp ht
  exact hauth ((h.armed t ht).2 (hnone t ht)).symm

/-- There is no reconnect timer as long as a socket is not closed. -/
theorem Ordered.unarmed (h : Ordered x) (hmade : x.made.isSome = true) (hopen : x.readyState ≠ .closed)
    (t : Nat × Alarm) (ht : t ∈ x.timers) : isReconnect t = false := by
  cases hr : isReconnect t with
  | true => exact absurd (h.pending ⟨t, ht, hr⟩ hmade) hopen
  | false => rfl

/-- An entry that stands on what it needs is added to the log, if it bars nothing. -/
theorem Ordered.push (h : Ordered x) {e : Entry} (hgood : Orderly x.log e)
    (hbar : Barred (e :: x.log) → Barred x.log) : Ordered { x with log := e :: x.log } :=
  { h with
    grounded := ⟨hgood, h.grounded⟩
    barred := fun hb => h.barred (hbar hb)
    greeted := fun hmade hopen hphase => by
      obtain ⟨publicKey, hmem⟩ := h.greeted hmade hopen hphase
      exact ⟨publicKey, List.mem_cons_of_mem e hmem⟩
    asked := fun hmade hopen hpos => by
      obtain ⟨publicKey, message, challenge, hsub⟩ := h.asked hmade hopen hpos
      exact ⟨publicKey, message, challenge, hsub.cons e⟩
    authenticated := fun hmade hphase => by
      obtain ⟨publicKey, message, challenge, signature, hsub⟩ := h.authenticated hmade hphase
      exact ⟨publicKey, message, challenge, signature, hsub.cons e⟩
    ready := fun hready => (h.ready hready).cons e }

/-- The socket of a session is closing. -/
theorem Ordered.close (h : Ordered x) : Ordered { x with readyState := x.readyState.close } := by
  have hclosed : x.readyState = .closed → x.readyState.close = .closed := fun heq => by
    rw [heq]
    rfl
  have hconnecting : x.readyState.close ≠ .connecting := by
    rcases close_cases x.readyState with heq | heq
    · rw [heq]
      exact fun hno => by cases hno
    · rw [heq]
      exact fun hno => by cases hno
  have hopen : x.readyState.close ≠ .open := by
    rcases close_cases x.readyState with heq | heq
    · rw [heq]
      exact fun hno => by cases hno
    · rw [heq]
      exact fun hno => by cases hno
  exact
    { h with
      pending := fun hsome hmade => hclosed (h.pending hsome hmade)
      rejected := fun _ _ => close_cases _
      barred := fun hbar => ⟨(h.barred hbar).1, (h.barred hbar).2.1, (h.barred hbar).2.2.1,
        (h.barred hbar).2.2.2.imp_right hclosed⟩
      connecting := fun _ hno => absurd hno hconnecting
      greeted := fun _ hno => absurd hno hopen
      asked := fun _ hno => absurd hno hopen }

/-- A phase that is over by itself: the socket of the session is closing, or closed. -/
theorem Ordered.reject (h : Ordered x) {readyState : ReadyState}
    (hclose : readyState = .closing ∨ readyState = .closed)
    (hkeeps : x.readyState = .closed → readyState = .closed) :
    Ordered { x with phase := .rejected, readyState } := by
  have hconnecting : readyState ≠ .connecting := by
    rintro rfl
    rcases hclose with hno | hno
    · cases hno
    · cases hno
  have hopen : readyState ≠ .open := by
    rintro rfl
    rcases hclose with hno | hno
    · cases hno
    · cases hno
  exact
    { h with
      pending := fun hsome hmade => hkeeps (h.pending hsome hmade)
      rejected := fun _ _ => hclose
      barred := fun hbar => ⟨(h.barred hbar).1, (h.barred hbar).2.1, (h.barred hbar).2.2.1, Or.inl rfl⟩
      connecting := fun _ hno => absurd hno hconnecting
      greeted := fun _ hno => absurd hno hopen
      asked := fun _ hno => absurd hno hopen
      authenticated := fun _ hno => by cases hno }

/-- The signer has answered once more. -/
theorem Ordered.settled (h : Ordered x) : Ordered { x with signing := x.signing - 1 } :=
  { h with
    connecting := fun hmade hr => by
      obtain ⟨hphase, hzero⟩ := h.connecting hmade hr
      exact ⟨hphase, by rw [show x.signing = 0 from hzero]⟩
    asked := fun hmade hopen hpos => h.asked hmade hopen (hpos.trans_le (Nat.sub_le _ _)) }

/-- An attempt begins, unless the relay is barred; `connect` has cleared both timers. -/
theorem Ordered.attempt (h : Ordered x) (hbar : ¬Barred x.log) (phase : ClientPhase)
    (readyState : ReadyState) (signing : Nat) : Ordered (x.attempt phase readyState signing) := by
  have hnone : (x.attempt phase readyState signing).timers = [] := h.cleared
  exact
    { grounded := ⟨hbar, h.grounded⟩
      armed := fun t ht => by
        rw [hnone] at ht
        cases ht
      one := by
        rw [hnone]
        exact Nat.zero_le 1
      waiting := fun _ => hnone
      pending := fun _ hno => by cases hno
      rejected := fun hno => by cases hno
      barred := fun hno => absurd hno hbar
      connecting := fun hno => by cases hno
      greeted := fun hno => by cases hno
      asked := fun hno => by cases hno
      authenticated := fun hno => by cases hno
      ready := fun hno => by cases hno }

/-- An attempt that waits for its key or URL is not barred. -/
theorem Ordered.not_barred (h : Ordered x) (hwait : x.wait ≠ .nothing) : ¬Barred x.log :=
  fun hbar => hwait (h.barred hbar).2.1

/-- A socket is made, and armed with its fifteen seconds. -/
theorem Ordered.dial (h : Ordered x) (hwait : x.wait ≠ .nothing) (publicKey : Bytes) (url : String) :
    Ordered (x.dial publicKey url) := by
  have htimers : (x.dial publicKey url).timers = [(x.nextTimer, .auth x.generation)] := by
    unfold Session.dial
    dsimp only
    rw [h.waiting hwait]
    rfl
  exact
    { grounded := ⟨trivial, h.grounded⟩
      armed := fun t ht => by
        rw [htimers] at ht
        rw [List.mem_singleton.mp ht]
        exact ⟨(fun hno => by cases hno), fun _ => rfl⟩
      one := by
        rw [htimers]
        exact Nat.zero_le 1
      waiting := fun hno => absurd rfl hno
      pending := fun hsome => by
        obtain ⟨t, ht, hr⟩ := hsome
        rw [htimers] at ht
        rw [List.mem_singleton.mp ht] at hr
        cases hr
      rejected := fun _ hno => by cases hno
      barred := fun hno => absurd hno (h.not_barred hwait)
      connecting := fun _ _ => ⟨rfl, rfl⟩
      greeted := fun _ hno => by cases hno
      asked := fun _ hno => by cases hno
      authenticated := fun _ hno => by cases hno
      ready := fun hready => (h.ready hready).cons _ }

/-- A reconnect timer is armed when nothing else is. -/
theorem Ordered.reconnect (h : Ordered x) (htimers : x.timers = []) (hwait : x.wait = .nothing)
    (hbar : ¬Barred x.log) (hclosed : x.made.isSome = true → x.readyState = .closed) (delay : Nat) :
    Ordered (x.reconnect delay) := by
  have hone : (x.reconnect delay).timers = [(x.nextTimer, .reconnect delay)] := by
    unfold Session.reconnect
    dsimp only
    rw [htimers]
    rfl
  exact
    { h with
      armed := fun t ht => by
        rw [hone] at ht
        rw [List.mem_singleton.mp ht]
        exact ⟨fun _ => rfl, fun hno => by cases hno⟩
      one := by
        rw [hone]
        exact Nat.le_refl 1
      waiting := fun hno => absurd hwait hno
      pending := fun _ => hclosed
      barred := fun hno => absurd hno hbar
      ready := fun hno => by cases hno }

/-- No socket could be made: one timer is armed, to connect again. -/
theorem Ordered.undialled (h : Ordered x) (hsane : Sane client x) (hwait : x.wait ≠ .nothing) (url : String)
    (delay : Nat) : Ordered (Session.reconnect { x with wait := .nothing, url } delay) := by
  have hnone := h.waiting hwait
  have hless : Ordered { x with wait := .nothing, url } :=
    { h with
      waiting := fun hno => absurd rfl hno
      barred := fun hno => absurd hno (h.not_barred hwait) }
  refine hless.reconnect hnone rfl (h.not_barred hwait) (fun hmade => ?_) delay
  rw [show x.made = none from hsane.waiting hwait] at hmade
  cases hmade

/-- The first message: the socket was connecting, so the relay is not barred. -/
theorem Ordered.hello (h : Ordered x) {publicKey : Bytes} (hmade : x.made = some publicKey)
    (hconnecting : x.readyState = .connecting) (readyState : ReadyState) :
    Ordered { x with readyState, log := .hello x.generation publicKey :: x.log } := by
  have hsome : x.made.isSome = true := by
    rw [hmade]
    rfl
  obtain ⟨hphase, hzero⟩ := h.connecting hsome hconnecting
  have hnot : ¬Barred x.log := fun hbar => by
    rcases (h.barred hbar).2.2.2 with hno | hno
    · cases hphase.symm.trans hno
    · cases hconnecting.symm.trans hno
  have hpushed := h.push (e := .hello x.generation publicKey) trivial id
  exact
    { hpushed with
      pending := fun hsome' _ => by
        cases hconnecting.symm.trans (h.pending hsome' hsome)
      rejected := fun _ hno => by cases hphase.symm.trans hno
      barred := fun hbar => absurd hbar hnot
      connecting := fun _ _ => ⟨hphase, hzero⟩
      greeted := fun _ _ _ => ⟨publicKey, List.mem_cons_self⟩
      asked := fun _ _ hpos => absurd hpos (by rw [show x.signing = 0 from hzero]; exact Nat.lt_irrefl 0) }

/-- A violation bars the relay: nothing is armed to connect again. -/
theorem Ordered.violation (h : Ordered x) (hidle : x.made.isSome = true → x.wait = .nothing)
    (hmade : x.made.isSome = true) (hstill : x.readyState ≠ .closed) {readyState : ReadyState}
    (hclose : readyState = .closing ∨ readyState = .closed) :
    Ordered { x with readyState, phase := .rejected, log := .violation x.generation :: x.log } := by
  have hnone := h.unarmed hmade hstill
  have hrejected := h.reject hclose fun hno => absurd hno hstill
  exact
    { hrejected with
      grounded := ⟨trivial, h.grounded⟩
      barred := fun _ => ⟨hnone, hidle hmade, hmade, Or.inl rfl⟩
      greeted := fun _ _ hno => by cases hno
      asked := fun _ hno => by
        rw [show readyState = .open from hno] at hclose
        rcases hclose with hno | hno
        · cases hno
        · cases hno
      authenticated := fun _ hno => by cases hno
      ready := fun hready => (h.ready hready).cons _ }

/-- The challenge is accepted, on a socket that said hello. -/
theorem Ordered.challenge (h : Ordered x) (hmade : x.made.isSome = true)
    (hopen : x.readyState ≠ .connecting) (hphase : x.phase = .hello) (message : Json)
    (challenge : Challenge) :
    Ordered { x with
      phase := .signing, signing := x.signing + 1
      log := .challenge x.generation message challenge :: x.log } := by
  have hpushed := h.push (e := .challenge x.generation message challenge) trivial id
  exact
    { hpushed with
      rejected := fun _ hno => by cases hno
      barred := fun hbar => by
        obtain ⟨hnone, hwait, -, hor⟩ := h.barred hbar
        refine ⟨hnone, hwait, hmade, Or.inr (hor.resolve_left fun hno => ?_)⟩
        cases hphase.symm.trans hno
      connecting := fun _ hno => absurd hno hopen
      greeted := fun _ _ hno => by cases hno
      asked := fun _ hr _ => by
        obtain ⟨publicKey, hmem⟩ := h.greeted hmade hr hphase
        exact ⟨publicKey, message, challenge, (List.singleton_sublist.mpr hmem).cons_cons _⟩
      authenticated := fun _ hno => by cases hno }

/-- The relay says `ready`: the handshake is in the log, from its first message on. -/
theorem Ordered.admit (h : Ordered x) (hmade : x.made.isSome = true) (hphase : x.phase = .authenticated) :
    Ordered { x with
      phase := .ready, ready := true, timers := without x.timers x.authTimer
      log := .ready x.generation :: x.log } := by
  obtain ⟨publicKey, message, challenge, signature, hsub⟩ := h.authenticated hmade hphase
  have hpushed := (h.fewer (without_sublist x.timers x.authTimer)).push (e := .ready x.generation) trivial id
  exact
    { hpushed with
      rejected := fun _ hno => by cases hno
      barred := fun hbar => by
        obtain ⟨hnone, hwait, -, hor⟩ := hpushed.barred hbar
        refine ⟨hnone, hwait, hmade, Or.inr (hor.resolve_left fun hno => ?_)⟩
        cases hphase.symm.trans hno
      connecting := fun _ hno => by
        cases hphase.symm.trans (h.connecting hmade hno).1
      greeted := fun _ _ hno => by cases hno
      authenticated := fun _ hno => by cases hno
      ready := fun _ => ⟨publicKey, message, challenge, signature, hsub.cons_cons _⟩ }

/-- The signature is sent, on a socket that is still open. -/
theorem Ordered.authenticate (h : Ordered x) (hpos : 0 < x.signing) (hopen : x.readyState = .open)
    (signature : Bytes) :
    Ordered { x with
      phase := .authenticated, signing := x.signing - 1
      log := .authenticate x.generation signature :: x.log } := by
  have hpushed := (h.push (e := .authenticate x.generation signature) trivial id).settled
  exact
    { hpushed with
      rejected := fun _ hno => by cases hno
      barred := fun hbar => by
        obtain ⟨-, -, hmade, hor⟩ := h.barred hbar
        rcases hor with hphase | hclosed
        · rcases h.rejected hmade hphase with hno | hno
          · cases hopen.symm.trans hno
          · cases hopen.symm.trans hno
        · cases hopen.symm.trans hclosed
      connecting := fun _ hno => by cases hopen.symm.trans hno
      greeted := fun _ _ hno => by cases hno
      authenticated := fun hmade _ => by
        obtain ⟨publicKey, message, challenge, hsub⟩ := h.asked hmade hopen hpos
        exact ⟨publicKey, message, challenge, signature, hsub.cons_cons _⟩ }

/-- Code 1008 bars the relay: nothing is armed to connect again. -/
theorem Ordered.refused (h : Ordered x) (hidle : x.made.isSome = true → x.wait = .nothing)
    (hmade : x.made.isSome = true) (hstill : x.readyState ≠ .closed) :
    Ordered { x with
      ready := false, readyState := .closed, timers := without x.timers x.authTimer
      log := .refused x.generation :: x.log } := by
  have hnone := h.unarmed hmade hstill
  have hfewer := h.fewer (without_sublist x.timers x.authTimer)
  exact
    { hfewer with
      grounded := ⟨trivial, h.grounded⟩
      pending := fun _ _ => rfl
      rejected := fun _ _ => Or.inr rfl
      barred := fun _ =>
        ⟨fun t ht => hnone t (mem_without.mp ht).1, hidle hmade, hmade, Or.inr rfl⟩
      connecting := fun _ hno => by cases hno
      greeted := fun _ hno => by cases hno
      asked := fun _ hno => by cases hno
      authenticated := fun hsome hphase => by
        obtain ⟨publicKey, message, challenge, signature, hsub⟩ := h.authenticated hsome hphase
        exact ⟨publicKey, message, challenge, signature, hsub.cons _⟩
      ready := fun hno => by cases hno }

/-- The `close` of a socket that was rejected arms nothing. -/
theorem Ordered.ended (h : Ordered x) :
    Ordered { x with ready := false, readyState := .closed, timers := without x.timers x.authTimer } := by
  have hfewer := h.fewer (without_sublist x.timers x.authTimer)
  exact
    { hfewer with
      pending := fun _ _ => rfl
      rejected := fun _ _ => Or.inr rfl
      barred := fun hbar => ⟨(hfewer.barred hbar).1, (h.barred hbar).2.1, (h.barred hbar).2.2.1, Or.inr rfl⟩
      connecting := fun _ hno => by cases hno
      greeted := fun _ hno => by cases hno
      asked := fun _ hno => by cases hno
      ready := fun hno => by cases hno }

/-- The `close` of any other socket arms one timer, to connect again. -/
theorem Ordered.dropped (h : Ordered x) (hidle : x.made.isSome = true → x.wait = .nothing)
    (hmade : x.made.isSome = true) (hphase : x.phase ≠ .rejected) (hstill : x.readyState ≠ .closed)
    (delay : Nat) :
    Ordered (Session.reconnect
      { x with readyState := .closed, timers := without x.timers x.authTimer } delay) := by
  have hnone := h.unarmed hmade hstill
  have hnot : ¬Barred x.log := fun hbar => by
    rcases (h.barred hbar).2.2.2 with hno | hno
    · exact hphase hno
    · exact hstill hno
  have hfewer := h.fewer (without_sublist x.timers x.authTimer)
  have hdown : Ordered { x with
      readyState := .closed, timers := without x.timers x.authTimer } :=
    { hfewer with
      pending := fun _ _ => rfl
      rejected := fun _ _ => Or.inr rfl
      barred := fun hbar => absurd hbar hnot
      connecting := fun _ hno => by cases hno
      greeted := fun _ hno => by cases hno
      asked := fun _ hno => by cases hno }
  exact hdown.reconnect (h.cleared_auth hnone) (hidle hmade) hnot (fun _ => rfl) delay

/-- **Every move** of the standard keeps a session ordered. -/
theorem Ordered.move (h : Ordered x) (hsane : Sane client x) {standard : Prop} (hstandard : standard)
    (hmove : Move client standard x x') : Ordered x' := by
  have hidle : x.made.isSome = true → x.wait = .nothing := fun hmade => by
    by_contra hno
    rw [hsane.waiting hno] at hmade
    cases hmade
  cases hmove with
  | stay => exact h
  | retry phase readyState signing =>
    exact (h.push (e := .retry) trivial fun hno => hno.elim).attempt id phase readyState signing
  | again id delay ht phase readyState signing =>
    refine (h.fewer (without_sublist x.timers (some id))).attempt (fun hbar => ?_) phase readyState signing
    cases (h.barred hbar).1 _ ht
  | expire id readyState hr =>
    have hfewer := h.fewer (without_sublist x.timers (some id))
    rcases hr with rfl | rfl
    · exact hfewer
    · exact hfewer.close
  | shut => exact h.close
  | discover publicKey hwait =>
    have hsome : x.wait ≠ .nothing := by
      rw [hwait]
      exact fun hno => by cases hno
    exact
      { h with
        waiting := fun _ => h.waiting hsome
        barred := fun hno => absurd hno (h.not_barred hsome) }
  | dial publicKey url hwait => exact h.dial hwait publicKey url
  | undialled url delay hwait => exact h.undialled hsane hwait url delay
  | hello publicKey readyState hmade hopen => exact h.hello hmade (hopen hstandard) readyState
  | violation readyState hmade hopen hclose => exact h.violation hidle hmade (hopen hstandard) hclose
  | deliver frame hready => exact h.push (e := .delivered x.generation frame) (h.ready hready) id
  | spill frame hready readyState hclose =>
    have hpushed := h.push (e := .delivered x.generation frame) (h.ready hready) id
    refine hpushed.reject ?_ fun hno => ?_
    · rw [hclose]
      exact close_cases _
    · rw [hclose, show x.readyState = .closed from hno]
      rfl
  | challenge message challenge now hmade hopen hmessage => exact h.challenge hmade (hopen hstandard) (onMessage_signing hmessage).1 message challenge
  | ready hmade hphase => exact h.admit hmade hphase
  | unsigned readyState hclose =>
    have hrejected : Ordered { x with phase := .rejected, readyState } := by
      refine h.reject ?_ fun hno => ?_
      · rw [hclose]
        exact close_cases _
      · rw [hclose, hno]
        rfl
    exact hrejected.settled
  | authenticate signature hpos hopen => exact h.authenticate hpos hopen signature
  | late => exact h.settled
  | refused hmade hopen => exact h.refused hidle hmade (hopen hstandard)
  | ended hphase => exact h.ended
  | dropped delay hmade hphase hopen => exact h.dropped hidle hmade hphase (hopen hstandard) delay
  | send frame k hready hsocket =>
    have hk : k = x.generation :=
      Option.some.inj (hsocket.symm.trans (hsane.socket (hsane.ready hready).1).1)
    rw [hk]
    exact h.push (e := .sent x.generation frame) (h.ready hready) id

end Order

/-! ## §3. Runs. -/

section Runs

variable {s s' : State} {e : Event}

/-- **What holds between any two steps**, before and after the adapter is destroyed. -/
structure Inv (client : Client P) (s : State) : Prop where
  live : s.closed = false → Sane client s.session
  ended : s.closed = true → s.ready = false ∧ Grounded (Lawful client) s.log

structure InOrder (s : State) : Prop where
  live : s.closed = false → Ordered s.session
  ended : s.closed = true → s.timers = [] ∧ Grounded Orderly s.log

/-- A new adapter has begun its first attempt. -/
theorem inv_start (client : Client P) : Inv client (State.start client) ∧ InOrder (State.start client) := by
  obtain ⟨hclosed, phase, readyState, signing, hsession⟩ := session_connect (s := State.new client) rfl
  have hsane : Sane client (State.start client).session := by
    unfold State.start
    rw [hsession]
    refine sane_attempt (x := (State.new client).session) trivial (fun hno => ?_) (fun k url hno => ?_) (fun k m c hno => ?_) _ _ _
    · cases hno
    · cases hno
    · cases hno
  have hnew : Ordered (State.new client).session :=
    { grounded := trivial
      armed := fun t ht => by cases ht
      one := Nat.zero_le 1
      waiting := fun _ => rfl
      pending := fun _ hno => by cases hno
      rejected := fun hno => by cases hno
      barred := fun hno => hno.elim
      connecting := fun hno => by cases hno
      greeted := fun hno => by cases hno
      asked := fun hno => by cases hno
      authenticated := fun hno => by cases hno
      ready := fun hno => by cases hno }
  have hordered : Ordered (State.start client).session := by
    unfold State.start
    rw [hsession]
    exact hnew.attempt id _ _ _
  have hopen : (State.start client).closed = true → False := fun hno => by
    cases hclosed.symm.trans hno
  exact ⟨⟨fun _ => hsane, fun hno => (hopen hno).elim⟩, ⟨fun _ => hordered, fun hno => (hopen hno).elim⟩⟩

/-- **One step**, in whatever order the events come. -/
theorem inv_step (h : Inv client s) (hstep : step client s e = some s') : Inv client s' := by
  cases hclosed : s.closed with
  | false =>
    have hsane := h.live hclosed
    rcases step_moves hclosed hstep with ⟨hstill, hmove⟩ | ⟨hdestroyed, hready, hlog, -⟩
    · exact ⟨fun _ => hsane.move hmove, fun hno => by cases hstill.symm.trans hno⟩
    · refine ⟨fun hno => ?_, fun _ => ⟨hready, ?_⟩⟩
      · cases hdestroyed.symm.trans hno
      · rw [hlog]
        exact ⟨⟨hsane.alive, trivial⟩, hsane.grounded⟩
  | true =>
    obtain ⟨hready, hgrounded⟩ := h.ended hclosed
    obtain ⟨hstill, hready', hlog, -⟩ := step_over hclosed hready hstep
    refine ⟨fun hno => ?_, fun _ => ⟨hready', ?_⟩⟩
    · cases hstill.symm.trans hno
    · rw [hlog]
      exact hgrounded

/-- **One step**, in the order of the standard. -/
theorem inOrder_step (h : Inv client s) (ho : InOrder s) (hstandard : Standard s e)
    (hstep : step client s e = some s') : InOrder s' := by
  cases hclosed : s.closed with
  | false =>
    have hordered := ho.live hclosed
    rcases step_moves hclosed hstep with ⟨hstill, hmove⟩ | ⟨hdestroyed, -, hlog, htimers⟩
    · exact ⟨fun _ => hordered.move (h.live hclosed) hstandard hmove,
        fun hno => by cases hstill.symm.trans hno⟩
    · refine ⟨fun hno => ?_, fun _ => ⟨htimers.trans hordered.cleared, ?_⟩⟩
      · cases hdestroyed.symm.trans hno
      · rw [hlog]
        exact ⟨trivial, hordered.grounded⟩
  | true =>
    obtain ⟨htimers, hgrounded⟩ := ho.ended hclosed
    obtain ⟨hstill, -, hlog, hnone⟩ := step_over hclosed (h.ended hclosed).1 hstep
    refine ⟨fun hno => ?_, fun _ => ⟨hnone htimers, ?_⟩⟩
    · cases hstill.symm.trans hno
    · rw [hlog]
      exact hgrounded

end Runs

/-- **The adapter, in every run.**  Whatever order the events come in: a frame passes only on the
    socket of the latest attempt, on which a challenge was signed and the signature accepted; the
    signer is asked once in an attempt, for a challenge that names the attempt's URL and the origin;
    and nothing happens after `destroy`.  If a socket's events come in the order of the standard, a
    frame passes only after the whole handshake, no more than one reconnect timer is armed, no attempt
    follows a rejection without `retry`, and no timer is left by `destroy`. -/
theorem adapter_runs (client : Client P) (events : List Event) (s : State)
    (hrun : run (step client) (State.start client) events = some s) :
    (∀ later e earlier, s.log = later ++ e :: earlier → Lawful client earlier e) ∧
    (Throughout (step client) Standard (State.start client) events →
      (∀ later e earlier, s.log = later ++ e :: earlier → Orderly earlier e) ∧
      (s.timers.filter isReconnect).length ≤ 1 ∧ (.destroy ∈ s.log → s.timers = [])) := by
  obtain ⟨hstart, hfirst⟩ := inv_start client
  have hinv : Inv client s := run_keeps (fun _ _ _ h hstep => inv_step h hstep) events _ _ hstart hrun
  refine ⟨fun later e earlier heq => ?_, fun hstandard => ?_⟩
  · have hgrounded : Grounded (Lawful client) s.log := by
      cases hclosed : s.closed with
      | false => exact (hinv.live hclosed).grounded
      | true => exact (hinv.ended hclosed).2
    rw [heq] at hgrounded
    exact hgrounded.good
  · obtain ⟨-, horder⟩ : Inv client s ∧ InOrder s :=
      run_invariant (I := fun s => Inv client s ∧ InOrder s)
        (fun _ _ _ h hok hstep => ⟨inv_step h.1 hstep, inOrder_step h.1 h.2 hok hstep⟩)
        events _ _ ⟨hstart, hfirst⟩ hstandard hrun
    cases hclosed : s.closed with
    | false =>
      have hordered := horder.live hclosed
      refine ⟨fun later e earlier heq => ?_, hordered.one, fun hmem => ?_⟩
      · have hgrounded : Grounded Orderly s.log := hordered.grounded
        rw [heq] at hgrounded
        exact hgrounded.good
      · exact absurd hmem (hinv.live hclosed).alive
    | true =>
      obtain ⟨htimers, hgrounded⟩ := horder.ended hclosed
      refine ⟨fun later e earlier heq => ?_, ?_, fun _ => htimers⟩
      · rw [heq] at hgrounded
        exact hgrounded.good
      · rw [htimers]
        exact Nat.zero_le 1

def demoClient : Client plain :=
  { identity := none, url := "wss://relay.test/my98-relay/v1", origin := "https://my98.test" }

def demoMessage : Json :=
  .obj [("type", .str "challenge"), ("url", .str demoClient.url), ("origin", .str demoClient.origin),
    ("nonce", .str "0000000000000000000000000000000000000000000000000000000000000000"),
    ("expires", .int 10)]

/-- The handshake, and a frame. -/
def demoEvents : List Event :=
  [.key 1 (some []) false, .open 1 PROTOCOL, .message 1 (.text (some demoMessage) 5000), .signature 1 (some [7]),
    .message 1 (.text (some readyMessage) 6000), .send [1, 2, 3] 0]

/-- A handshake, and a frame that is sent after it. -/
theorem demo_adapter_runs :
    ∃ s, run (step demoClient) (State.start demoClient) demoEvents = some s ∧
      s.log.head? = some (.sent 1 [1, 2, 3]) ∧ (s.timers.filter isReconnect).length ≤ 1 :=
  ⟨_, run_getD (by decide +kernel), rfl,
    ((adapter_runs demoClient demoEvents _ (run_getD (by decide +kernel))).2 (by decide +kernel)).2.1⟩

/-- The challenge comes before `open`. -/
def demoEarly : List Event :=
  [.key 1 (some []) false, .message 1 (.text (some demoMessage) 5000), .open 1 PROTOCOL, .signature 1 (some [7]),
    .message 1 (.text (some readyMessage) 6000), .send [1, 2, 3] 0]

/-- A message that is out of place comes after `close`. -/
def demoLate : List Event :=
  [.key 1 (some []) false, .open 1 PROTOCOL, .close 1 1006, .message 1 (.text none 5000), .timer 2]

/-- A socket is closed twice. -/
def demoTwice : List Event := [.key 1 (some []) false, .close 1 1006, .close 1 1006]

def Entry.stage : Entry → Nat
  | .hello _ _ => 0
  | .challenge _ _ _ => 1
  | _ => 2

/-- **The order matters**: in another one a frame may pass without the handshake, a new attempt may
    follow a rejection, and two reconnect timers may be armed, of which `destroy` clears one. -/
theorem order_matters :
    (∃ s k frame earlier, run (step demoClient) (State.start demoClient) demoEarly = some s ∧
      s.log = .sent k frame :: earlier ∧ ¬Exchanged k earlier) ∧
    (∃ s k earlier, run (step demoClient) (State.start demoClient) demoLate = some s ∧
      s.log = .attempt k :: earlier ∧ Barred earlier) ∧
    (∃ s, run (step demoClient) (State.start demoClient) demoTwice = some s ∧
      (s.timers.filter isReconnect).length = 2) ∧
    ∃ s, run (step demoClient) (State.start demoClient) (demoTwice ++ [.destroy true]) = some s ∧
      s.closed = true ∧ s.timers ≠ [] := by
  refine ⟨⟨_, 1, [1, 2, 3], _, run_getD (by decide +kernel), rfl, ?_⟩,
    ⟨_, 2, _, run_getD (by decide +kernel), rfl, trivial⟩,
    ⟨_, run_getD (by decide +kernel), by decide +kernel⟩,
    ⟨_, run_getD (by decide +kernel), by decide +kernel, by decide +kernel⟩⟩
  rintro ⟨publicKey, message, challenge, signature, hsub⟩
  have hstages : [2, 2, 1, 0].Sublist [2, 2, 0, 1, 2, 2] := hsub.map Entry.stage
  exact absurd hstages (by decide)

end My98.Relay.Adapter
