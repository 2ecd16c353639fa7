/-
  My98.Relay.Invariant — what every step of the relay daemon keeps.

  Authorization is asked three times (at hello, at registration, at every frame) and revocation takes
  two locks: it changes the set and then walks the map.  The invariant ties the shared tables to
  the log (`Shared`) and each connection to its own entries (`Placed`).

    • `Shared.quiet` — a step that touches neither the set nor the map keeps the tables' part;
    • `Placed.keep`  — a step of another task keeps a connection's part;
    • `inv_step`     — every step keeps both, case by case over the events.
-/
import Mathlib.Data.Finset.Basic
import Mathlib.Data.List.Perm.Subperm
import Mathlib.Algebra.Order.Ring.Nat
import Mathlib.Tactic.Common
import My98.Relay.History

namespace My98.Relay

open My98.Lib My98.Crypto

/-! ## §1. The invariant. -/

/-- Every session that was registered before its key was revoked is cancelled, or was gone. -/
def Flagged (cancelled : List Nat) (log : List Entry) : Prop :=
  ∀ newer task text older, log = newer ++ .revoked task text :: older →
    ∀ c id, .registered c id text ∈ older → id ∈ cancelled ∨ .dropped id ∈ older

/-- The shared tables agree with the log. -/
structure Shared (keys : Finset String) (s : State) : Prop where
  allow : s.allow = allowOf keys s.log
  sound : Sound keys s.log
  distinct : (s.active.map Prod.fst).Nodup
  below : ∀ e ∈ s.active, e.1 < s.next
  alive : ∀ c id text, .registered c id text ∈ s.log → (id, text) ∈ s.active ∨ .dropped id ∈ s.log
  owned : ∀ e ∈ s.active, ∃ c ∈ s.sessions, (s.conns c).id? = some e.1
  few : s.sessions.length ≤ 4
  guarded : ∀ e ∈ s.active, e.2 ∈ s.allow ∨ e.1 ∈ s.cancelled
  flagged : Flagged s.cancelled s.log
  asked : ∀ t ∈ s.tasks, t.2.command = "revoke" → .revoked t.1 t.2.publicKey ∈ s.log

/-- What the log says of a connection that stands in a phase. -/
def Standing (s : State) (c : Nat) : Phase → Prop
  | .upgraded origin => .upgraded c origin ∈ s.log
  | .challenged text origin nonce expires => .challenged c text origin nonce expires ∈ s.log
  | .authenticated text => ∃ origin nonce expires now,
      .proved c text origin nonce expires now ∈ s.log
  | .permitted text => c ∈ s.sessions ∧ ∃ origin nonce expires now,
      .proved c text origin nonce expires now ∈ s.log
  | .session text id point => c ∈ s.sessions ∧ .registered c id text ∈ s.log ∧
      ∀ direction frame, point = .checked direction frame →
        Unspent c text direction frame s.log
  | _ => True

/-- On the way out, or out. -/
def Phase.ended : Phase → Bool
  | .session _ _ .leaving | .done | .closed => true
  | _ => false

structure Placed (s : State) (c : Nat) : Prop where
  standing : Standing s c (s.conns c)
  stops : .stopped c ∈ s.log → (s.conns c).ended = true

structure Inv (keys : Finset String) (s : State) : Prop where
  shared : Shared keys s
  placed : ∀ c, Placed s c

/-- An entry that is no revocation flags nobody. -/
theorem Flagged.cons {cancelled : List Nat} {log : List Entry} {e : Entry}
    (h : Flagged cancelled log) (hne : ∀ task text, e ≠ .revoked task text) :
    Flagged cancelled (e :: log) := by
  intro newer task text older hlog
  rcases List.cons_eq_append_iff.mp hlog with ⟨-, hhead⟩ | ⟨rest, -, hrest⟩
  · injection hhead with he _
    exact absurd he.symm (hne task text)
  · exact h rest task text older hrest

/-- The relay at its start. -/
theorem inv_start (keys : Finset String) : Inv keys (start keys) where
  shared :=
    { allow := rfl
      sound := trivial
      distinct := List.nodup_nil
      below := fun _ h => absurd h List.not_mem_nil
      alive := fun _ _ _ h => absurd h List.not_mem_nil
      owned := fun _ h => absurd h List.not_mem_nil
      few := Nat.zero_le 4
      guarded := fun _ h => absurd h List.not_mem_nil
      flagged := by
        intro newer task text older h
        cases newer <;> cases h
      asked := fun _ h => absurd h List.not_mem_nil }
  placed := fun _ => { standing := trivial, stops := fun h => absurd h List.not_mem_nil }

/-- Every session has a permit, and the ids are distinct. -/
theorem Shared.four {keys : Finset String} {s : State} (h : Shared keys s) :
    s.active.length ≤ 4 := by
  have hsub : s.active.map Prod.fst ⊆ s.sessions.filterMap fun c => (s.conns c).id? := by
    intro id hid
    obtain ⟨e, he, rfl⟩ := List.mem_map.mp hid
    obtain ⟨c, hc, hphase⟩ := h.owned e he
    exact List.mem_filterMap.mpr ⟨c, hc, hphase⟩
  calc s.active.length = (s.active.map Prod.fst).length := (List.length_map ..).symm
    _ ≤ (s.sessions.filterMap fun c => (s.conns c).id?).length :=
        (List.subperm_of_subset h.distinct hsub).length_le
    _ ≤ s.sessions.length := List.length_filterMap_le ..
    _ ≤ 4 := h.few

/-! ## §2. Steps that leave the set and the map alone. -/

/-- At most one entry, and nothing shared that a revocation reads. -/
structure Quiet (s s' : State) (entry : Option Entry) : Prop where
  allow : s'.allow = s.allow
  active : s'.active = s.active
  cancelled : s'.cancelled = s.cancelled
  next : s'.next = s.next
  tasks : ∀ t ∈ s'.tasks, t ∈ s.tasks ∨ t.2.command ≠ "revoke"
  ids : ∀ c, (s'.conns c).id? = (s.conns c).id?
  sessions : s.sessions ⊆ s'.sessions
  few : s'.sessions.length ≤ 4
  log : s'.log = entry.toList ++ s.log

section Steps

variable {keys : Finset String} {s s' : State} {c : Nat} {entry : Option Entry}

/-- A quiet step forgets nothing of the log. -/
theorem Quiet.mem_log (q : Quiet s s' entry) {e : Entry} (h : e ∈ s.log) : e ∈ s'.log := by
  rw [q.log]
  exact List.mem_append_right _ h

/-- An entry that is new is the one that was added. -/
theorem Quiet.mem_old (q : Quiet s s' entry) {e : Entry} (h : e ∈ s'.log) (hne : e ∉ entry) :
    e ∈ s.log := by
  rw [q.log] at h
  rcases List.mem_append.mp h with hnew | hold
  · exact absurd (Option.mem_toList.mp hnew) hne
  · exact hold

/-- A quiet step keeps what the connections share. -/
theorem Shared.quiet (h : Shared keys s) (q : Quiet s s' entry)
    (hgood : ∀ e ∈ entry, e.plain = true ∧ Good keys s.log e) : Shared keys s' where
  allow := by
    rw [q.allow, q.log, h.allow]
    cases entry with
    | none => rfl
    | some e => exact (allowOf_plain (hgood e rfl).1).symm
  sound := by
    rw [q.log]
    cases entry with
    | none => exact h.sound
    | some e => exact ⟨(hgood e rfl).2, h.sound⟩
  distinct := q.active ▸ h.distinct
  below := by
    rw [q.active, q.next]
    exact h.below
  alive := by
    intro c id text hmem
    have hold : Entry.registered c id text ∈ s.log := by
      refine q.mem_old hmem ?_
      intro hnew
      cases (hgood _ hnew).1
    rw [q.active]
    exact (h.alive c id text hold).imp_right q.mem_log
  owned := by
    intro e he
    rw [q.active] at he
    obtain ⟨c, hc, hphase⟩ := h.owned e he
    exact ⟨c, q.sessions hc, (q.ids c).trans hphase⟩
  few := q.few
  guarded := by
    rw [q.active, q.allow, q.cancelled]
    exact h.guarded
  flagged := by
    rw [q.cancelled, q.log]
    cases entry with
    | none => exact h.flagged
    | some e =>
      refine h.flagged.cons ?_
      rintro task text rfl
      cases (hgood _ rfl).1
  asked := by
    intro t ht hrevoke
    rcases q.tasks t ht with hold | hne
    · exact q.mem_log (h.asked t hold hrevoke)
    · exact absurd hrevoke hne

/-- What the log says of a connection stays true under entries of others. -/
theorem Standing.grow {phase : Phase} {entries : List Entry} (h : Standing s c phase)
    (hsessions : c ∈ s.sessions → c ∈ s'.sessions) (hlog : s'.log = entries ++ s.log)
    (hentries : ∀ direction frame, Entry.passed c direction frame ∉ entries) :
    Standing s' c phase := by
  have hmem : ∀ {e}, e ∈ s.log → e ∈ s'.log := by
    intro e he
    rw [hlog]
    exact List.mem_append_right _ he
  cases phase with
  | upgraded origin => exact hmem h
  | challenged text origin nonce expires => exact hmem h
  | authenticated text =>
    obtain ⟨origin, nonce, expires, now, hproved⟩ := h
    exact ⟨origin, nonce, expires, now, hmem hproved⟩
  | permitted text =>
    obtain ⟨hc, origin, nonce, expires, now, hproved⟩ := h
    exact ⟨hsessions hc, origin, nonce, expires, now, hmem hproved⟩
  | session text id point =>
    refine ⟨hsessions h.1, hmem h.2.1, ?_⟩
    intro direction frame hpoint
    rw [hlog]
    exact (h.2.2 direction frame hpoint).append hentries
  | _ => trivial

/-- The connection whose stop or whose frame an entry is. -/
def Entry.mover : Entry → Option Nat
  | .passed c _ _ | .stopped c => some c
  | _ => none

/-- A connection that another step leaves where it is. -/
theorem Placed.keep (h : Placed s c) (entries : List Entry) (hconns : s'.conns c = s.conns c)
    (hsessions : c ∈ s.sessions → c ∈ s'.sessions) (hlog : s'.log = entries ++ s.log)
    (hmover : ∀ e ∈ entries, e.mover ≠ some c) : Placed s' c where
  standing := by
    rw [hconns]
    exact h.standing.grow hsessions hlog fun _ _ hmem => hmover _ hmem rfl
  stops := by
    intro hmem
    rw [hlog] at hmem
    rw [hconns]
    rcases List.mem_append.mp hmem with hnew | hold
    · exact absurd rfl (hmover _ hnew)
    · exact h.stops hold

/-- **A quiet step of connection `c`.** -/
theorem Inv.quiet (h : Inv keys s) (q : Quiet s s' entry)
    (hgood : ∀ e ∈ entry, e.plain = true ∧ Good keys s.log e)
    (hothers : ∀ c' ≠ c, s'.conns c' = s.conns c' ∧ ∀ e ∈ entry, e.mover ≠ some c')
    (hplaced : Placed s' c) : Inv keys s' where
  shared := h.shared.quiet q hgood
  placed := by
    intro c'
    by_cases hc : c' = c
    · exact hc ▸ hplaced
    · obtain ⟨hconns, hmover⟩ := hothers c' hc
      exact (h.placed c').keep entry.toList hconns (fun hc => q.sessions hc) q.log
        fun e he => hmover e (Option.mem_toList.mp he)

/-- A quiet step of no connection. -/
theorem Inv.aside (h : Inv keys s) (q : Quiet s s' entry)
    (hgood : ∀ e ∈ entry, e.plain = true ∧ Good keys s.log e) (hconns : s'.conns = s.conns)
    (hmover : ∀ e ∈ entry, e.mover = none) : Inv keys s' where
  shared := h.shared.quiet q hgood
  placed := by
    intro c
    refine (h.placed c).keep entry.toList (congrFun hconns c) (fun hc => q.sessions hc) q.log ?_
    intro e he heq
    rw [hmover e (Option.mem_toList.mp he)] at heq
    cases heq

end Steps

/-! ## §3. Steps of one connection. -/

/-- An entry that connection `c` may add while it goes on in `phase`. -/
structure Adds (keys : Finset String) (s : State) (c : Nat) (phase : Phase) (e : Entry) : Prop where
  plain : e.plain = true
  good : Good keys s.log e
  mover : e.mover = none ∨ e.mover = some c
  stop : e = .stopped c → phase.ended = true

/-- The phase of one connection, at most one entry, and the permits. -/
def State.goes (s : State) (c : Nat) (phase : Phase) (entry : Option Entry)
    (sessions handshakes : List Nat) : State :=
  { s.move c phase with
    log := entry.toList ++ s.log, sessions := sessions, handshakes := handshakes }

section Goes

variable {keys : Finset String} {s : State} {c : Nat} {phase : Phase} {entry : Option Entry}
  {sessions handshakes : List Nat}

/-- The connection that moves is in its new phase. -/
theorem goes_conns_self : (s.goes c phase entry sessions handshakes).conns c = phase :=
  Function.update_self ..

/-- The others are where they were. -/
theorem goes_conns_ne {c' : Nat} (h : c' ≠ c) :
    (s.goes c phase entry sessions handshakes).conns c' = s.conns c' :=
  Function.update_of_ne h ..

/-- **A connection may move on** with entries that are good for it. -/
theorem Inv.goes (h : Inv keys s) (hid : phase.id? = (s.conns c).id?)
    (hended : (s.conns c).ended = true → phase.ended = true)
    (hadds : ∀ e ∈ entry, Adds keys s c phase e) (hsessions : s.sessions ⊆ sessions)
    (hfew : sessions.length ≤ 4)
    (hstanding : Standing (s.goes c phase entry sessions handshakes) c phase) :
    Inv keys (s.goes c phase entry sessions handshakes) := by
  have hquiet : Quiet s (s.goes c phase entry sessions handshakes) entry :=
    { allow := rfl
      active := rfl
      cancelled := rfl
      next := rfl
      tasks := fun t ht => .inl ht
      ids := by
        intro c'
        by_cases hc : c' = c
        · rw [hc, goes_conns_self, hid]
        · rw [goes_conns_ne hc]
      sessions := hsessions
      few := hfew
      log := rfl }
  refine h.quiet hquiet (fun e he => ⟨(hadds e he).plain, (hadds e he).good⟩) (c := c)
    ?_ ?_
  · intro c' hc
    refine ⟨goes_conns_ne hc, ?_⟩
    intro e he heq
    rcases (hadds e he).mover with hnone | hsome
    · rw [hnone] at heq
      cases heq
    · rw [hsome] at heq
      exact hc (Option.some.inj heq).symm
  · refine ⟨?_, ?_⟩
    · rw [goes_conns_self]
      exact hstanding
    · intro hmem
      rw [goes_conns_self]
      by_cases hnew : Entry.stopped c ∈ entry
      · exact (hadds _ hnew).stop rfl
      · exact hended ((h.placed c).stops (hquiet.mem_old hmem hnew))

/-- A connection that says nothing. -/
theorem Inv.moved (h : Inv keys s) (hid : phase.id? = (s.conns c).id?)
    (hended : (s.conns c).ended = true → phase.ended = true)
    (hstanding : Standing s c phase) : Inv keys (s.move c phase) := by
  have hgrown : Standing (s.goes c phase none s.sessions s.handshakes) c phase :=
    hstanding.grow id rfl (by simp)
  have hnone : ∀ e ∈ (none : Option Entry), Adds keys s c phase e :=
    fun e he => absurd he (Option.not_mem_none e)
  exact h.goes hid hended hnone (List.Subset.refl _) h.shared.few hgrown

/-- A connection that leaves one entry. -/
theorem Inv.noted {e : Entry} (h : Inv keys s) (hid : phase.id? = (s.conns c).id?)
    (hended : (s.conns c).ended = true → phase.ended = true) (hadds : Adds keys s c phase e)
    (hstanding : Standing ((s.move c phase).note e) c phase) :
    Inv keys ((s.move c phase).note e) := by
  have hall : ∀ e' ∈ some e, Adds keys s c phase e' := by
    intro e' he'
    exact Option.some.inj he' ▸ hadds
  show Inv keys (s.goes c phase (some e) s.sessions s.handshakes)
  exact h.goes hid hended hall (List.Subset.refl _) h.shared.few hstanding

end Goes

section Connection

variable {keys : Finset String} {config : Config} {P : Primitives} {s s' : State} {c : Nat}

/-- A new connection keeps the invariant. -/
theorem inv_accept (h : Inv keys s) (hs : connection config P s (.accept c) = some s') :
    Inv keys s' := by
  simp only [connection] at hs
  split at hs
  next hidle =>
    split at hs
    · obtain rfl := Option.some.inj hs
      have hnone : ∀ e ∈ (none : Option Entry), Adds keys s c .accepted e :=
        fun e he => absurd he (Option.not_mem_none e)
      exact h.goes (by rw [hidle]; rfl) (by rw [hidle]; simp [Phase.ended]) hnone (List.Subset.refl _)
        h.shared.few trivial
    · obtain rfl := Option.some.inj hs
      exact h.moved (by rw [hidle]; rfl) (fun _ => rfl) trivial
  · cases hs

/-- So does an upgrade. -/
theorem inv_upgrade {path origin requested : String} (h : Inv keys s)
    (hs : connection config P s (.upgrade c path origin requested) = some s') : Inv keys s' := by
  simp only [connection] at hs
  split at hs
  next haccepted =>
    split at hs
    · obtain rfl := Option.some.inj hs
      have hadds : Adds keys s c (.upgraded origin) (.upgraded c origin) :=
        { plain := rfl, good := trivial, mover := .inl rfl, stop := by simp }
      exact h.noted (by rw [haccepted]; rfl) (by rw [haccepted]; simp [Phase.ended]) hadds
        List.mem_cons_self
    · obtain rfl := Option.some.inj hs
      exact h.moved (by rw [haccepted]; rfl) (fun _ => rfl) trivial
  · cases hs

/-- So does a connection that fails. -/
theorem inv_fail (h : Inv keys s) (hs : connection config P s (.fail c) = some s') :
    Inv keys s' := by
  obtain ⟨phase, hphase, rfl⟩ := Option.map_eq_some_iff.mp hs
  have hstanding := (h.placed c).standing
  cases hc : s.conns c with
  | session text id point =>
    rw [hc] at hphase hstanding
    have hleaving : phase = .session text id .leaving := by
      cases point with
      | leaving => cases hphase
      | _ => exact (Option.some.inj hphase).symm
    subst hleaving
    exact h.moved (by rw [hc]; rfl) (fun _ => rfl) ⟨hstanding.1, hstanding.2.1, (by simp)⟩
  | idle => rw [hc] at hphase; cases hphase
  | done => rw [hc] at hphase; cases hphase
  | closed => rw [hc] at hphase; cases hphase
  | _ =>
    rw [hc] at hphase
    obtain rfl := Option.some.inj hphase
    exact h.moved (by rw [hc]; rfl) (fun _ => rfl) trivial

/-- A hello that is accepted names a key on the list. -/
theorem readHello_ok {allow : Finset String} {message : Option Json} {text : String}
    (h : readHello allow message = .ok text) : text ∈ allow := by
  unfold readHello at h
  split at h
  · cases h
  · split at h
    · cases h
    · split at h
      · cases h
      · split at h
        · cases h
        · split at h
          next hmem =>
            injection h with h
            exact h ▸ hmem
          · cases h

/-- So does a hello. -/
theorem inv_hello {message : Option Json} {nonce : Block 32} {now : Nat} (h : Inv keys s)
    (hs : connection config P s (.hello c message nonce now) = some s') : Inv keys s' := by
  simp only [connection] at hs
  split at hs
  next origin hupgraded =>
    split at hs
    · obtain rfl := Option.some.inj hs
      exact h.moved (by rw [hupgraded]; rfl) (fun _ => rfl) trivial
    next text hread =>
      obtain rfl := Option.some.inj hs
      have hmem := readHello_ok hread
      rw [h.shared.allow] at hmem
      have hstanding := (h.placed c).standing
      rw [hupgraded] at hstanding
      have hadds : Adds keys s c (.challenged text origin nonce (now + 10))
          (.challenged c text origin nonce (now + 10)) :=
        { plain := rfl
          good := ⟨hmem, hstanding⟩
          mover := .inl rfl
          stop := by simp }
      exact h.noted (by rw [hupgraded]; rfl) (by rw [hupgraded]; simp [Phase.ended]) hadds
        List.mem_cons_self
  · cases hs

/-- The signature that an answer carries. -/
def signatureOf (message : Option Json) : Option Bytes :=
  (message.bind fun response => response.text? "signature").bind hexDecode

/-- **An accepted answer** came in time, and its signature verifies for the challenge. -/
theorem readAnswer_ok {text origin : String} {nonce : Block 32} {expires now : Nat}
    {message : Option Json}
    (h : readAnswer P config text origin nonce expires message now = .ok ()) :
    now < expires ∧ ∃ publicKey bytes signature, signatureOf message = some signature ∧
      key text = .ok publicKey ∧
      relayChallenge publicKey config.publicUrl origin nonce.val expires = .ok bytes ∧
      verify P publicKey bytes signature = true := by
  unfold readAnswer at h
  split at h
  · cases h
  next response =>
    split at h
    · cases h
    next hvalid =>
      split at h
      · cases h
      next encoded hencoded =>
        split at h
        · cases h
        next signature hsignature =>
          split at h
          · cases h
          next publicKey hkey =>
            split at h
            · cases h
            next bytes hbytes =>
              split at h
              next hverified =>
                simp only [not_or, not_le] at hvalid
                refine ⟨hvalid.2, publicKey, bytes, signature, ?_, hkey, hbytes, hverified⟩
                show (response.text? "signature").bind hexDecode = some signature
                rw [hencoded]
                exact hsignature
              · cases h

/-- So does an answer to the challenge: it was verified, or the connection ends. -/
theorem inv_authenticate {message : Option Json} {now : Nat} (h : Inv keys s)
    (hs : connection config P s (.authenticate c message now) = some s') : Inv keys s' := by
  simp only [connection] at hs
  split at hs
  next text origin nonce expires hchallenged =>
    split at hs
    · obtain rfl := Option.some.inj hs
      exact h.moved (by rw [hchallenged]; rfl) (fun _ => rfl) trivial
    next hread =>
      obtain rfl := Option.some.inj hs
      have hstanding := (h.placed c).standing
      rw [hchallenged] at hstanding
      have hadds : Adds keys s c (.authenticated text)
          (.proved c text origin nonce expires now) :=
        { plain := rfl
          good := ⟨(readAnswer_ok hread).1, hstanding⟩
          mover := .inl rfl
          stop := by simp }
      exact h.noted (by rw [hchallenged]; rfl) (by rw [hchallenged]; simp [Phase.ended]) hadds
        ⟨origin, nonce, expires, now, List.mem_cons_self⟩
  · cases hs

/-- So does a permit that is taken. -/
theorem inv_acquire (h : Inv keys s) (hs : connection config P s (.acquire c) = some s') :
    Inv keys s' := by
  simp only [connection] at hs
  split at hs
  next text hauthenticated =>
    split at hs
    next hroom =>
      obtain rfl := Option.some.inj hs
      have hstanding := (h.placed c).standing
      rw [hauthenticated] at hstanding
      have hnone : ∀ e ∈ (none : Option Entry), Adds keys s c (.permitted text) e :=
        fun e he => absurd he (Option.not_mem_none e)
      exact h.goes (by rw [hauthenticated]; rfl) (by rw [hauthenticated]; simp [Phase.ended]) hnone
        (List.subset_cons_self c _) hroom ⟨List.mem_cons_self, hstanding⟩
    · obtain rfl := Option.some.inj hs
      exact h.moved (by rw [hauthenticated]; rfl) (fun _ => rfl) trivial
  · cases hs

/-! ## §4. Steps of a registered connection. -/

section Session

variable {text : String} {id : Nat} {point point' : Point}

/-- A registered connection that has not left goes on. -/
theorem Inv.walks (h : Inv keys s) (hphase : s.conns c = .session text id point)
    (hpoint : point ≠ .leaving) (hpoint' : ∀ direction frame, point' ≠ .checked direction frame) :
    Inv keys (s.move c (.session text id point')) := by
  have hstanding := (h.placed c).standing
  rw [hphase] at hstanding
  refine h.moved (by rw [hphase]; rfl) ?_ ⟨hstanding.1, hstanding.2.1, ?_⟩
  · rw [hphase]
    cases point with
    | leaving => exact absurd rfl hpoint
    | _ => simp [Phase.ended]
  · intro direction frame heq
    exact absurd heq (hpoint' direction frame)

/-- The same with an entry. -/
theorem Inv.walks_noted {e : Entry} (h : Inv keys s) (hphase : s.conns c = .session text id point)
    (hpoint : point ≠ .leaving) (hadds : Adds keys s c (.session text id point') e)
    (hpoint' : ∀ direction frame, point' = .checked direction frame →
      Unspent c text direction frame (e :: s.log)) :
    Inv keys ((s.move c (.session text id point')).note e) := by
  have hstanding := (h.placed c).standing
  rw [hphase] at hstanding
  refine h.noted (by rw [hphase]; rfl) ?_ hadds
    ⟨hstanding.1, List.mem_cons_of_mem _ hstanding.2.1, hpoint'⟩
  rw [hphase]
  cases point with
  | leaving => exact absurd rfl hpoint
  | _ => simp [Phase.ended]

/-- So does the second look at the list. -/
theorem inv_look (h : Inv keys s) (hs : connection config P s (.look c) = some s') :
    Inv keys s' := by
  simp only [connection] at hs
  split at hs
  next text id hregistered =>
    obtain rfl := Option.some.inj hs
    split
    · exact h.walks hregistered (by simp) (by simp)
    · exact h.walks hregistered (by simp) (by simp)
  · cases hs

/-- So does a session that becomes ready. -/
theorem inv_ready (h : Inv keys s) (hs : connection config P s (.ready c) = some s') :
    Inv keys s' := by
  simp only [connection] at hs
  split at hs
  next text id hstarted =>
    obtain rfl := Option.some.inj hs
    have hstanding := (h.placed c).standing
    rw [hstarted] at hstanding
    have hadds : ∀ e ∈ some (Entry.ready c), Adds keys s c (.session text id .selecting) e := by
      intro e he
      obtain rfl := Option.some.inj he
      exact { plain := rfl, good := trivial, mover := .inl rfl, stop := by simp }
    exact h.goes (by rw [hstarted]; rfl) (by rw [hstarted]; simp [Phase.ended]) hadds
      (List.Subset.refl _) h.shared.few
      ⟨hstanding.1, List.mem_cons_of_mem _ hstanding.2.1, (by simp)⟩
  · cases hs

/-- So does the branch of the `select` that no revocation took. -/
theorem inv_select (h : Inv keys s) (hs : connection config P s (.select c) = some s') :
    Inv keys s' := by
  simp only [connection] at hs
  split at hs
  next text id hselecting =>
    split at hs
    · obtain rfl := Option.some.inj hs
      have hadds : Adds keys s c (.session text id .leaving) (.stopped c) :=
        { plain := rfl, good := trivial, mover := .inr rfl, stop := fun _ => rfl }
      exact h.walks_noted hselecting (by simp) hadds (by simp)
    · obtain rfl := Option.some.inj hs
      exact h.walks hselecting (by simp) (by simp)
  · cases hs

/-- So does a round of the loop without a frame. -/
theorem inv_turn (h : Inv keys s) (hs : connection config P s (.turn c) = some s') :
    Inv keys s' := by
  simp only [connection] at hs
  split at hs
  next text id hwaiting =>
    obtain rfl := Option.some.inj hs
    exact h.walks hwaiting (by simp) (by simp)
  · cases hs

/-- The check of a frame, in either direction. -/
theorem inv_check {direction : Direction} {frame : Bytes} {admitted : Bool} (h : Inv keys s)
    (hphase : s.conns c = .session text id .waiting) :
    Inv keys (s.check c text id direction frame admitted) := by
  have hstanding := (h.placed c).standing
  rw [hphase] at hstanding
  unfold State.check
  split
  next hmem =>
    rw [h.shared.allow] at hmem
    have hadds : ∀ phase, Adds keys s c phase (.checked c text direction frame) := by
      intro phase
      exact
        { plain := rfl
          good := ⟨hmem, id, hstanding.2.1⟩
          mover := .inl rfl
          stop := by simp }
    have hunspent : Unspent c text direction frame (.checked c text direction frame :: s.log) :=
      ⟨[], s.log, rfl, fun _ _ hmem => absurd hmem List.not_mem_nil⟩
    cases admitted with
    | true =>
      refine h.walks_noted hphase (by simp) (hadds _) ?_
      intro direction' frame' heq
      injection heq with hdirection hframe
      exact hdirection ▸ hframe ▸ hunspent
    | false => exact h.walks_noted hphase (by simp) (hadds _) (by simp)
  · exact h.walks hphase (by simp) (by simp)

/-- So does a message of the peer. -/
theorem inv_incoming {bytes : Bytes} (h : Inv keys s)
    (hs : connection config P s (.incoming c bytes) = some s') : Inv keys s' := by
  simp only [connection] at hs
  split at hs
  next text id hwaiting =>
    obtain rfl := Option.some.inj hs
    exact inv_check h hwaiting
  · cases hs

/-- So does a frame for the peer. -/
theorem inv_outgoing {frame : Bytes} (h : Inv keys s)
    (hs : connection config P s (.outgoing c frame) = some s') : Inv keys s' := by
  simp only [connection] at hs
  split at hs
  next text id hwaiting =>
    obtain rfl := Option.some.inj hs
    exact inv_check h hwaiting
  · cases hs

/-- So does a frame that is passed on. -/
theorem inv_pass {sent : Bool} (h : Inv keys s)
    (hs : connection config P s (.pass c sent) = some s') : Inv keys s' := by
  simp only [connection] at hs
  split at hs
  next text id direction frame hchecked =>
    have hplaced := h.placed c
    split at hs
    · obtain rfl := Option.some.inj hs
      have hstopped : Entry.stopped c ∉ s.log := by
        intro hmem
        have hended := hplaced.stops hmem
        rw [hchecked] at hended
        cases hended
      have hstanding := hplaced.standing
      rw [hchecked] at hstanding
      have hadds : Adds keys s c (.session text id .selecting) (.passed c direction frame) :=
        { plain := rfl
          good := ⟨hstopped, text, hstanding.2.2 direction frame rfl⟩
          mover := .inr rfl
          stop := by simp }
      exact h.walks_noted hchecked (by simp) hadds (by simp)
    · obtain rfl := Option.some.inj hs
      split
      · exact h.walks hchecked (by simp) (by simp)
      · exact h.walks hchecked (by simp) (by simp)
  · cases hs

end Session

/-! ## §5. Steps on the active map. -/

/-- So does a session that is registered. -/
theorem inv_register (h : Inv keys s) (hs : connection config P s (.register c) = some s') :
    Inv keys s' := by
  simp only [connection] at hs
  split at hs
  next text hpermitted =>
    have hstanding := (h.placed c).standing
    rw [hpermitted] at hstanding
    split at hs
    next hmem =>
      obtain rfl := Option.some.inj hs
      -- The connection has not ended: it holds a permit.
      have hstopped : Entry.stopped c ∉ s.log := by
        intro hlog
        have hended := (h.placed c).stops hlog
        rw [hpermitted] at hended
        cases hended
      have hothers : ∀ {c'}, c' ≠ c →
          Function.update s.conns c (.session text s.next .registered) c' = s.conns c' :=
        fun hc => Function.update_of_ne hc ..
      exact
        { shared :=
            { allow := h.shared.allow
              sound := ⟨⟨h.shared.allow ▸ hmem, hstanding.2⟩, h.shared.sound⟩
              distinct := by
                refine List.nodup_cons.mpr ⟨?_, h.shared.distinct⟩
                intro hid
                obtain ⟨e, he, heq⟩ := List.mem_map.mp hid
                -- Every id that was given out is below the counter.
                have hlt := h.shared.below e he
                omega
              below := by
                intro e he
                rcases List.mem_cons.mp he with rfl | he
                · exact Nat.lt_succ_self _
                · exact Nat.lt_succ_of_lt (h.shared.below e he)
              alive := by
                intro c' id' text' hentry
                rcases List.mem_cons.mp hentry with hnew | hold
                · injection hnew with _ hid htext
                  exact .inl (hid ▸ htext ▸ List.mem_cons_self)
                · exact (h.shared.alive c' id' text' hold).imp (List.mem_cons_of_mem _)
                    (List.mem_cons_of_mem _)
              owned := by
                intro e he
                rcases List.mem_cons.mp he with rfl | he
                · refine ⟨c, hstanding.1, ?_⟩
                  show (Function.update s.conns c _ c).id? = _
                  rw [Function.update_self]
                  rfl
                · obtain ⟨c', hc', hphase⟩ := h.shared.owned e he
                  refine ⟨c', hc', ?_⟩
                  -- The sessions that exist belong to other connections.
                  have hne : c' ≠ c := by
                    rintro rfl
                    rw [hpermitted] at hphase
                    cases hphase
                  exact (congrArg Phase.id? (hothers hne)).trans hphase
              few := h.shared.few
              guarded := by
                intro e he
                rcases List.mem_cons.mp he with rfl | he
                · exact .inl hmem
                · exact h.shared.guarded e he
              flagged := h.shared.flagged.cons (by simp)
              asked := fun t ht hrevoke => List.mem_cons_of_mem _ (h.shared.asked t ht hrevoke) }
          placed := by
            intro c'
            by_cases hc : c' = c
            · subst hc
              refine ⟨?_, ?_⟩
              · show Standing _ c' (Function.update s.conns c' _ c')
                rw [Function.update_self]
                exact ⟨hstanding.1, List.mem_cons_self, (by simp)⟩
              · intro hlog
                rcases List.mem_cons.mp hlog with hnew | hold
                · cases hnew
                · exact absurd hold hstopped
            · exact (h.placed c').keep [.registered c s.next text] (hothers hc)
                (fun hmem => hmem) rfl (by simp [Entry.mover]) }
    · obtain rfl := Option.some.inj hs
      have hmoved : Inv keys (s.move c .done) :=
        h.moved (by rw [hpermitted]; rfl) (fun _ => rfl) trivial
      -- the id that was taken is not used
      exact
        { shared := { hmoved.shared with
            below := fun e he => Nat.lt_succ_of_lt (h.shared.below e he) }
          placed := fun c' => (hmoved.placed c').keep [] rfl id rfl (by simp) }
  · cases hs

/-- So does a registration that is dropped. -/
theorem inv_drop (h : Inv keys s) (hs : connection config P s (.drop c) = some s') :
    Inv keys s' := by
  simp only [connection] at hs
  split at hs
  next text id hleaving =>
    obtain rfl := Option.some.inj hs
    have hothers : ∀ {c'}, c' ≠ c → Function.update s.conns c .done c' = s.conns c' :=
      fun hc => Function.update_of_ne hc ..
    have hkept : ∀ {e}, e ∈ s.active.filter (fun e => e.1 ≠ id) → e ∈ s.active ∧ e.1 ≠ id := by
      intro e he
      have hmem := List.mem_filter.mp he
      exact ⟨hmem.1, of_decide_eq_true hmem.2⟩
    exact
      { shared :=
          { allow := h.shared.allow
            sound := ⟨trivial, h.shared.sound⟩
            distinct := (List.filter_sublist.map _).nodup h.shared.distinct
            below := fun e he => h.shared.below e (hkept he).1
            alive := by
              intro c' id' text' hentry
              have hold : Entry.registered c' id' text' ∈ s.log := by
                rcases List.mem_cons.mp hentry with hnew | hold
                · cases hnew
                · exact hold
              by_cases hid : id' = id
              · exact .inr (hid ▸ List.mem_cons_self)
              · refine (h.shared.alive c' id' text' hold).imp ?_ (List.mem_cons_of_mem _)
                exact fun hmem => List.mem_filter.mpr ⟨hmem, decide_eq_true hid⟩
            owned := by
              intro e he
              obtain ⟨hmem, hid⟩ := hkept he
              obtain ⟨c', hc', hphase⟩ := h.shared.owned e hmem
              have hne : c' ≠ c := by
                rintro rfl
                rw [hleaving] at hphase
                exact hid (Option.some.inj hphase).symm
              exact ⟨c', hc', (congrArg Phase.id? (hothers hne)).trans hphase⟩
            few := h.shared.few
            guarded := fun e he => h.shared.guarded e (hkept he).1
            flagged := h.shared.flagged.cons (by simp)
            asked := fun t ht hrevoke => List.mem_cons_of_mem _ (h.shared.asked t ht hrevoke) }
        placed := by
          intro c'
          by_cases hc : c' = c
          · subst hc
            have hdone : Function.update s.conns c' Phase.done c' = .done := Function.update_self ..
            refine ⟨?_, ?_⟩
            · show Standing _ c' (Function.update s.conns c' Phase.done c')
              rw [hdone]
              trivial
            · intro _
              exact congrArg Phase.ended hdone
          · exact (h.placed c').keep [.dropped id] (hothers hc) (fun hmem => hmem) rfl
              (by simp [Entry.mover]) }
  · cases hs

/-- So does a permit that is given back. -/
theorem inv_release (h : Inv keys s) (hs : connection config P s (.release c) = some s') :
    Inv keys s' := by
  simp only [connection] at hs
  split at hs
  next hdone =>
    obtain rfl := Option.some.inj hs
    have hmoved : Inv keys (s.move c .closed) :=
      h.moved (by rw [hdone]; rfl) (fun _ => rfl) trivial
    have hself : (s.move c .closed).conns c = .closed := Function.update_self ..
    exact
      { shared := { hmoved.shared with
          owned := by
            intro e he
            obtain ⟨c', hc', hphase⟩ := hmoved.shared.owned e he
            have hne : c' ≠ c := by
              rintro rfl
              rw [hself] at hphase
              cases hphase
            exact ⟨c', (List.mem_erase_of_ne hne).mpr hc', hphase⟩
          few := (List.length_erase_le).trans h.shared.few }
        placed := by
          intro c'
          by_cases hc : c' = c
          · subst hc
            refine ⟨?_, (hmoved.placed c').stops⟩
            show Standing _ c' ((s.move c' .closed).conns c')
            rw [hself]
            trivial
          · exact (hmoved.placed c').keep [] rfl (List.mem_erase_of_ne hc).mpr rfl (by simp) }
  · cases hs

end Connection

/-! ## §6. Steps of the admin task and of the key holders. -/

section Tasks

variable {keys : Finset String} {config : Config} {P : Primitives} {s s' : State}

/-- A key that is added to the list was added by an administrator. -/
theorem inv_allow (h : Inv keys s) {a : Admin} (ha : a.command ≠ "revoke") :
    Inv keys { s with
      file := insert a.publicKey s.allow, allow := insert a.publicKey s.allow
      tasks := (s.requests, a) :: s.tasks, requests := s.requests + 1
      log := .allowed s.requests a.publicKey :: .saved (insert a.publicKey s.allow) :: s.log } where
  shared :=
    { allow := congrArg (insert a.publicKey) h.shared.allow
      sound := ⟨⟨s.log, by rw [h.shared.allow]; rfl⟩, trivial, h.shared.sound⟩
      distinct := h.shared.distinct
      below := h.shared.below
      alive := by
        intro c id text hentry
        have hold : Entry.registered c id text ∈ s.log := by simpa using hentry
        refine (h.shared.alive c id text hold).imp_right ?_
        exact fun hmem => List.mem_cons_of_mem _ (List.mem_cons_of_mem _ hmem)
      owned := h.shared.owned
      few := h.shared.few
      guarded := fun e he => (h.shared.guarded e he).imp_left Finset.mem_insert_of_mem
      flagged := by
        have hsaved : Flagged s.cancelled (.saved (insert a.publicKey s.allow) :: s.log) :=
          h.shared.flagged.cons (by simp)
        exact hsaved.cons (by simp)
      asked := by
        intro t ht hrevoke
        rcases List.mem_cons.mp ht with rfl | hold
        · exact absurd hrevoke ha
        · exact List.mem_cons_of_mem _ (List.mem_cons_of_mem _ (h.shared.asked t hold hrevoke)) }
  placed := fun c => (h.placed c).keep
    [.allowed s.requests a.publicKey, .saved (insert a.publicKey s.allow)] rfl (fun hmem => hmem)
    rfl (by simp [Entry.mover])

/-- **Revocation.**  Whoever has the key is cancelled in the same section in which the key leaves the
    set: a session that is not in the map any more was dropped, and no other can have come. -/
theorem inv_revoke (h : Inv keys s) {a : Admin} :
    Inv keys { s with
      file := s.allow.erase a.publicKey, allow := s.allow.erase a.publicKey
      cancelled := (s.active.filter fun e => e.2 = a.publicKey).map Prod.fst ++ s.cancelled
      tasks := (s.requests, a) :: s.tasks, requests := s.requests + 1
      log := .revoked s.requests a.publicKey :: .saved (s.allow.erase a.publicKey) :: s.log } where
  shared :=
    { allow := congrArg (fun allow => allow.erase a.publicKey) h.shared.allow
      sound := ⟨⟨s.log, by rw [h.shared.allow]; rfl⟩, trivial, h.shared.sound⟩
      distinct := h.shared.distinct
      below := h.shared.below
      alive := by
        intro c id text hentry
        have hold : Entry.registered c id text ∈ s.log := by simpa using hentry
        refine (h.shared.alive c id text hold).imp_right ?_
        exact fun hmem => List.mem_cons_of_mem _ (List.mem_cons_of_mem _ hmem)
      owned := h.shared.owned
      few := h.shared.few
      guarded := by
        intro e he
        by_cases hkey : e.2 = a.publicKey
        · refine .inr (List.mem_append_left _ (List.mem_map.mpr ⟨e, ?_, rfl⟩))
          exact List.mem_filter.mpr ⟨he, decide_eq_true hkey⟩
        · exact (h.shared.guarded e he).imp (fun hmem => Finset.mem_erase.mpr ⟨hkey, hmem⟩)
            (List.mem_append_right _)
      flagged := by
        intro newer task text older hlog c id hentry
        rcases List.cons_eq_append_iff.mp hlog with ⟨-, hhead⟩ | ⟨rest, -, hrest⟩
        · -- the sessions that were registered before this revocation
          injection hhead with he holder
          injection he with _ htext
          subst htext holder
          have hold : Entry.registered c id a.publicKey ∈ s.log := by simpa using hentry
          refine (h.shared.alive c id a.publicKey hold).imp ?_ (List.mem_cons_of_mem _)
          intro hmem
          refine List.mem_append_left _ (List.mem_map.mpr ⟨(id, a.publicKey), ?_, rfl⟩)
          exact List.mem_filter.mpr ⟨hmem, decide_eq_true rfl⟩
        · have hbefore : Flagged s.cancelled (.saved (s.allow.erase a.publicKey) :: s.log) :=
            h.shared.flagged.cons (by simp)
          exact (hbefore rest task text older hrest c id hentry).imp_left
            (List.mem_append_right _)
      asked := by
        intro t ht hrevoke
        rcases List.mem_cons.mp ht with rfl | hold
        · exact List.mem_cons_self
        · exact List.mem_cons_of_mem _ (List.mem_cons_of_mem _ (h.shared.asked t hold hrevoke)) }
  placed := fun c => (h.placed c).keep
    [.revoked s.requests a.publicKey, .saved (s.allow.erase a.publicKey)] rfl (fun hmem => hmem)
    rfl (by simp [Entry.mover])

/-- A line of the administrator keeps the invariant, whatever the file does. -/
theorem inv_admin (h : Inv keys s) (line : Option Admin) (saving : Saving) :
    Inv keys (admin s line saving) := by
  unfold admin
  cases line with
  | none => exact h
  | some a =>
    dsimp only
    split
    next hstatus =>
      have hquiet : Quiet s
          { s with tasks := (s.requests, a) :: s.tasks, requests := s.requests + 1 } none :=
        { allow := rfl, active := rfl, cancelled := rfl, next := rfl
          tasks := by
            intro t ht
            rcases List.mem_cons.mp ht with rfl | hold
            · exact .inr (by rw [hstatus]; decide)
            · exact .inl hold
          ids := fun _ => rfl
          sessions := List.Subset.refl _
          few := h.shared.few
          log := rfl }
      exact h.aside hquiet (fun e he => absurd he (Option.not_mem_none e)) rfl
        fun e he => absurd he (Option.not_mem_none e)
    · split
      next hcommand =>
        split
        · exact h
        · cases saving with
          | unwritten => exact h
          | unsynced =>
            have hquiet : Quiet s
                { s with file := nextAllow a s.allow, log := .saved (nextAllow a s.allow) :: s.log }
                (some (.saved (nextAllow a s.allow))) :=
              { allow := rfl, active := rfl, cancelled := rfl, next := rfl
                tasks := fun t ht => .inl ht
                ids := fun _ => rfl
                sessions := List.Subset.refl _
                few := h.shared.few
                log := rfl }
            refine h.aside hquiet ?_ rfl ?_
            · rintro e ⟨⟩
              exact ⟨rfl, trivial⟩
            · rintro e ⟨⟩
              rfl
          | done =>
            dsimp only
            rcases hcommand with hallow | hrevoke
            · have hne : a.command ≠ "revoke" := by rw [hallow]; decide
              rw [nextAllow, cancels, if_pos hallow, if_pos hallow, if_neg hne]
              exact inv_allow h hne
            · have hne : a.command ≠ "allow" := by rw [hrevoke]; decide
              rw [nextAllow, cancels, if_neg hne, if_neg hne, if_pos hrevoke]
              exact inv_revoke h
      · exact h

/-- So does the answer to it. -/
theorem inv_reply {task : Nat} {sent : Bool} (h : Inv keys s)
    (hs : step config P s (.reply task sent) = some s') : Inv keys s' := by
  simp only [step] at hs
  split at hs
  · cases hs
  next t hfind =>
    obtain rfl := Option.some.inj hs
    have htask : t.1 = task := by
      have hfound := List.find?_some hfind
      exact of_decide_eq_true hfound
    have hmem : t ∈ s.tasks := List.mem_of_find?_eq_some hfind
    have hquiet : Quiet s
        { s with
          tasks := s.tasks.filter fun t => t.1 ≠ task
          log := if sent then .answered task t.2 :: s.log else s.log }
        (if sent then some (.answered task t.2) else none) :=
      { allow := rfl, active := rfl, cancelled := rfl, next := rfl
        tasks := fun t ht => .inl (List.mem_filter.mp ht).1
        ids := fun _ => rfl
        sessions := List.Subset.refl _
        few := h.shared.few
        log := by cases sent <;> rfl }
    refine h.aside hquiet ?_ rfl ?_
    · cases sent with
      | false => exact fun e he => absurd he (Option.not_mem_none e)
      | true =>
        rintro e ⟨⟩
        refine ⟨rfl, ?_⟩
        intro hrevoke
        exact htask ▸ h.shared.asked t hmem hrevoke
    · cases sent with
      | false => exact fun e he => absurd he (Option.not_mem_none e)
      | true =>
        rintro e ⟨⟩
        rfl

/-- A client may sign what it is asked. -/
theorem inv_sign {text url origin : String} {nonce : Block 32} {expires : Nat} (h : Inv keys s) :
    Inv keys (s.note (.signed text url origin nonce expires)) := by
  have hquiet : Quiet s (s.note (.signed text url origin nonce expires))
      (some (.signed text url origin nonce expires)) :=
    { allow := rfl, active := rfl, cancelled := rfl, next := rfl
      tasks := fun t ht => .inl ht
      ids := fun _ => rfl
      sessions := List.Subset.refl _
      few := h.shared.few
      log := rfl }
  refine h.aside hquiet ?_ rfl ?_
  · rintro e ⟨⟩
    exact ⟨rfl, trivial⟩
  · rintro e ⟨⟩
    rfl

/-- **Every event of a connection keeps the invariant.** -/
theorem inv_connection (e : Event) (h : Inv keys s) (hs : connection config P s e = some s') :
    Inv keys s' := by
  cases e with
  | accept c => exact inv_accept h hs
  | upgrade c path origin requested => exact inv_upgrade h hs
  | hello c message nonce now => exact inv_hello h hs
  | authenticate c message now => exact inv_authenticate h hs
  | fail c => exact inv_fail h hs
  | acquire c => exact inv_acquire h hs
  | register c => exact inv_register h hs
  | look c => exact inv_look h hs
  | ready c => exact inv_ready h hs
  | select c => exact inv_select h hs
  | turn c => exact inv_turn h hs
  | incoming c bytes => exact inv_incoming h hs
  | outgoing c frame => exact inv_outgoing h hs
  | pass c sent => exact inv_pass h hs
  | drop c => exact inv_drop h hs
  | release c => exact inv_release h hs
  | _ => cases hs

/-- **The step lemma.** -/
theorem inv_step (e : Event) (h : Inv keys s) (hs : step config P s e = some s') :
    Inv keys s' := by
  cases e with
  | admin line saving =>
    obtain rfl := Option.some.inj hs
    exact inv_admin h line saving
  | reply task sent => exact inv_reply h hs
  | sign text url origin nonce expires =>
    obtain rfl := Option.some.inj hs
    exact inv_sign h
  | _ =>
    simp only [step] at hs
    exact inv_connection _ h hs

/-- **The run lemma.** -/
theorem inv_run {events : List Event} (h : run (step config P) (start keys) events = some s) :
    Inv keys s :=
  run_keeps (fun _ e _ hi hs => inv_step e hi hs) events _ _ (inv_start keys) h

end Tasks

end My98.Relay
