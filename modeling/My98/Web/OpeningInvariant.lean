/-
  My98.Web.OpeningInvariant — every run of the shared openings.

  The count of `waiters` is the number of callers in the job, so a job is abandoned when nobody is left
  in it; and as it has not ended then, whoever left it was cancelled.  So nobody who was not cancelled
  is ever told that a job was abandoned.

    • `Inv.reseat`, `Inv.sit` — a caller and its job; a caller in no job;
    • `Inv.leaves`            — a caller leaves its job;
    • `Inv.enter`             — `open` in its first turn;
    • `inv_step`              — one step;
    • `opening_shared`        — every run.
-/
import Mathlib
import My98.Web.TorrentOpening

namespace My98.Web.TorrentOpening

open My98.Lib

variable {H : Type} [DecidableEq H]

/-! ## §1. The steps. -/

section Steps

variable {t : Transport H}

/-- What follows a turn of a job keeps the invariant. -/
theorem Inv.after (h : Inv t) (j : Nat) (b : Job H) (turn : Turn) : Inv (t.after j b turn) := by
  unfold Transport.after
  split
  · split
    · exact h
    · exact h.maps _ _
  · split
    · exact h
    · exact h.maps _ _
  · exact h.drop _ _
  · exact h

/-- A turn of a job keeps it. -/
theorem Inv.turn (h : Inv t) {j : Nat} {b b' : Job H} {turn : Turn} (hj : t.jobs[j]? = some b)
    (hturn : b.turn turn = some b') : Inv ({ t with jobs := t.jobs.set j b' }.after j b' turn) := by
  have hspec := turned_of_turn hturn
  refine Inv.after (h.setJob hj (getElem?_put hj) hspec.hash hspec.aborted hspec.waiters hspec.settled
    hspec.returned fun result hr => ?_) j b' turn
  rcases hspec.result result hr with hr | ⟨hown, habandoned⟩
  · obtain ⟨hown, habandoned⟩ := (h.jobs j b hj).result result hr
    exact ⟨hown, fun heq => hspec.aborted.trans (habandoned heq)⟩
  · exact ⟨hown, fun heq => hspec.aborted.trans (habandoned heq)⟩

/-- **`finally` of a job.** -/
theorem Inv.settle (h : Inv t) {j : Nat} {b : Job H} {result : Result} (hj : t.jobs[j]? = some b)
    (hstage : b.stage = .returned result) (hopen : b.settled = false) :
    Inv { t with
      jobs := t.jobs.set j { b with settled := true }
      openingJobs := Function.update t.openingJobs b.hash none } := by
  have hold := h.jobs j b hj
  have hget := getElem?_put (y := { b with settled := true }) hj
  have hother : ∀ (k : Nat) x, t.jobs[k]? = some x → x.settled = false → k ≠ j → x.hash ≠ b.hash := by
    intro k x hx hs hk heq
    have hlisted := (h.jobs k x hx).listed hs
    rw [heq, hold.listed hopen] at hlisted
    exact hk (Option.some.inj hlisted).symm
  have hgrows : Grows t { t with
      jobs := t.jobs.set j { b with settled := true }
      openingJobs := Function.update t.openingJobs b.hash none } := by
    refine ⟨fun k x hx => ?_, fun i r hr => ⟨r, hr, rfl, fun _ => id⟩⟩
    by_cases hk : k = j
    · subst hk
      rw [hj] at hx
      obtain rfl := Option.some.inj hx
      refine ⟨_, (hget k).trans (if_pos rfl), rfl, id, fun result hs => ?_⟩
      exact ⟨rfl, hs.2.1, hs.2.2⟩
    · exact ⟨x, (hget k).trans ((if_neg hk).trans hx), rfl, id, fun _ => id⟩
  refine ⟨fun x hx => ⟨(h.callers x hx).1.grows hgrows, (h.callers x hx).2⟩, fun k x hx => ?_,
    fun hash k hk => ?_, fun i r hr => ?_, h.current⟩
  · have hx' : (t.jobs.set j { b with settled := true })[k]? = some x := hx
    rw [hget] at hx'
    split at hx'
    next hk =>
      obtain rfl := Option.some.inj hx'
      rw [hk]
      exact ⟨hold.waiters, (by intro hs; cases hs), hold.empty, fun _ => ⟨result, hstage⟩, hold.result⟩
    next hk =>
      have hx := h.jobs k x hx'
      refine ⟨hx.waiters, fun hs => ?_, hx.empty, hx.ended, hx.result⟩
      show Function.update t.openingJobs b.hash none x.hash = some k
      rw [Function.update_of_ne (hother k x hx' hs hk)]
      exact hx.listed hs
  · have hk' : Function.update t.openingJobs b.hash none hash = some k := hk
    by_cases heq : hash = b.hash
    · rw [heq, Function.update_self] at hk'
      cases hk'
    · rw [Function.update_of_ne heq] at hk'
      obtain ⟨x, hx, hh, hs⟩ := h.listed hash k hk'
      have hne : k ≠ j := by
        rintro rfl
        rw [hj] at hx
        obtain rfl := Option.some.inj hx
        exact heq hh.symm
      exact ⟨x, (hget k).trans ((if_neg hne).trans hx), hh, hs⟩
  · have hr' := h.recoveries i r hr
    exact ⟨hr'.current, hr'.opening, hr'.result⟩

/-- `callers` are those of `t`, with `a` new or in the place of one of them, which held `n k` of job
`k` before. -/
structure Seats (t : Transport H) (callers : List (Caller H)) (a : Caller H) (n : Nat → Nat) : Prop where
  mem : ∀ x ∈ callers, x ∈ t.callers ∨ x = a
  keep : ∀ (c : Nat) (x : Caller H), t.callers[c]? = some x →
    ∃ y, callers[c]? = some y ∧ y.signal = x.signal
  count : ∀ k, callers.countP (Caller.holds k) + n k =
    t.callers.countP (Caller.holds k) + if a.holds k then 1 else 0

omit [DecidableEq H] in
/-- A new caller takes a new seat. -/
theorem seats_append (t : Transport H) (a : Caller H) : Seats t (t.callers ++ [a]) a fun _ => 0 := by
  refine ⟨fun x hx => ?_, fun c x hx => ⟨x, ?_, rfl⟩, fun k => ?_⟩
  · exact (List.mem_append.mp hx).imp id List.mem_singleton.mp
  · have hlt := (List.getElem?_eq_some_iff.mp hx).1
    rw [List.getElem?_append_left hlt]
    exact hx
  · rw [List.countP_append, List.countP_singleton]
    rfl

omit [DecidableEq H] in
/-- A caller that goes on keeps its seat. -/
theorem seats_set {c : Nat} {a a' : Caller H} (ha : t.callers[c]? = some a)
    (hsignal : a'.signal = a.signal) :
    Seats t (t.callers.set c a') a' fun k => if a.holds k then 1 else 0 := by
  have hlt : c < t.callers.length := (List.getElem?_eq_some_iff.mp ha).1
  have hat : t.callers[c] = a := (List.getElem?_eq_some_iff.mp ha).2
  refine ⟨fun x hx => List.mem_or_eq_of_mem_set hx, fun k x hx => ?_, fun k => ?_⟩
  · rw [getElem?_put ha]
    split
    next hk =>
      rw [hk, ha] at hx
      obtain rfl := Option.some.inj hx
      exact ⟨a', rfl, hsignal⟩
    · exact ⟨x, hx, rfl⟩
  · rw [List.countP_set hlt, hat]
    have hpos : a.holds k = true → 0 < t.callers.countP (Caller.holds k) := fun hyes =>
      List.countP_pos_iff.mpr ⟨a, List.mem_of_getElem? ha, hyes⟩
    cases hyes : a.holds k with
    | false =>
      rw [if_neg Bool.false_ne_true]
      omega
    | true =>
      have hlt := hpos hyes
      rw [if_pos rfl]
      omega

omit [DecidableEq H] in
/-- **A caller and its job.**  Every other job keeps its callers. -/
theorem Inv.reseat (h : Inv t) {j : Nat} {b : Job H} {a : Caller H} {n : Nat → Nat}
    {callers : List (Caller H)} {jobs : List (Job H)} {openingJobs : H → Option Nat}
    (hseats : Seats t callers a n) (hgrows : Grows t { t with callers, jobs, openingJobs })
    (hget : ∀ k, jobs[k]? = if k = j then some b else t.jobs[k]?)
    (hok : JobOk { t with callers, jobs, openingJobs } j b)
    (ha : PcOk { t with callers, jobs, openingJobs } a.hash a.aborted a.pc)
    (hunsignalled : a.signal = false → a.aborted = false)
    (hjoined : ∀ k, a.pc.joined = some k → k = j)
    (hn : ∀ k, k ≠ j → n k = 0)
    (hlisted : ∀ (k : Nat) x, k ≠ j → t.jobs[k]? = some x → x.settled = false →
      openingJobs x.hash = some k)
    (hlists : ∀ hash k, openingJobs hash = some k →
      ∃ x, jobs[k]? = some x ∧ x.hash = hash ∧ x.settled = false) :
    Inv { t with callers, jobs, openingJobs } := by
  -- The caller that moves is counted by no other job.
  have hother : ∀ k, k ≠ j → a.holds k = false := by
    intro k hk
    cases hyes : a.holds k with
    | false => rfl
    | true =>
      have hpc : a.pc.joined = some k := by
        have hyes' : a.pc.holds k = true := hyes
        cases hp : a.pc with
        | inside i =>
          rw [hp] at hyes'
          rw [← beq_iff_eq.mp hyes']
          rfl
        | leaving i result =>
          rw [hp] at hyes'
          rw [← beq_iff_eq.mp hyes']
          rfl
        | behind i =>
          rw [hp] at hyes'
          cases hyes'
        | waiting i =>
          rw [hp] at hyes'
          cases hyes'
        | done origin result =>
          rw [hp] at hyes'
          cases hyes'
      exact absurd (hjoined k hpc) hk
  refine ⟨fun x hx => ?_, fun k x hx => ?_, hlists, fun i r hr => ?_, h.current⟩
  · rcases hseats.mem x hx with hx | rfl
    · exact ⟨(h.callers x hx).1.grows hgrows, (h.callers x hx).2⟩
    · exact ⟨ha, hunsignalled⟩
  · have hx' : jobs[k]? = some x := hx
    rw [hget] at hx'
    split at hx'
    next hk =>
      obtain rfl := Option.some.inj hx'
      rw [hk]
      exact hok
    next hk =>
      have hold := h.jobs k x hx'
      refine ⟨?_, hlisted k x hk hx', fun hb => ⟨(hold.empty hb).1, fun y hy hj => ?_⟩, hold.ended,
        hold.result⟩
      · have hcount := hseats.count k
        rw [hn k hk, hother k hk, if_neg Bool.false_ne_true] at hcount
        exact hold.waiters.trans hcount.symm
      · rcases hseats.mem y hy with hy | rfl
        · exact (hold.empty hb).2 y hy hj
        · exact absurd (hjoined k hj) hk
  · have hold := h.recoveries i r hr
    refine ⟨hold.current, fun c hc => ?_, hold.result⟩
    obtain ⟨x, hx, hs⟩ := hold.opening c hc
    obtain ⟨y, hy, hsy⟩ := hseats.keep c x hx
    exact ⟨y, hy, hsy.trans hs⟩

omit [DecidableEq H] in
/-- A job that a caller is in has not been abandoned. -/
theorem Inv.held (h : Inv t) {j : Nat} {b : Job H} {a : Caller H} (hj : t.jobs[j]? = some b)
    (ha : a ∈ t.callers) (hholds : a.holds j = true) : 0 < b.waiters ∧ b.aborted = false := by
  have hpos : 0 < b.waiters := by
    rw [(h.jobs j b hj).waiters]
    exact List.countP_pos_iff.mpr ⟨a, ha, hholds⟩
  refine ⟨hpos, ?_⟩
  cases hb : b.aborted with
  | false => rfl
  | true =>
    rw [((h.jobs j b hj).empty hb).1] at hpos
    cases hpos

omit [DecidableEq H] in
/-- **A caller leaves its job**, which is `b'` then. -/
theorem Inv.leaves (h : Inv t) {c j : Nat} {a : Caller H} {b b' : Job H} {result : Result}
    (ha : t.callers[c]? = some a) (hpc : a.pc = .leaving j result) (hj : t.jobs[j]? = some b)
    (hhash : b'.hash = b.hash) (hsettled : b'.settled = b.settled) (hwaiters : b'.waiters = b.waiters - 1)
    (hstage : b.settled = true → b'.stage = b.stage ∧ b'.aborted = b.aborted)
    (hempty : b'.aborted = true → b'.waiters = 0 ∧ b.settled = false)
    (hresult : ∀ result, b'.stage = .returned result →
      result ≠ .error .own ∧ (result = .error .abandoned → b'.aborted = true)) :
    Inv { t.setPc c a (.done (.job j) result) with jobs := t.jobs.set j b' } := by
  -- The caller was counted by the job, and the job was not abandoned.
  have hholds : a.holds j = true := by
    show a.pc.holds j = true
    rw [hpc]
    exact beq_self_eq_true j
  have hmem := List.mem_of_getElem? ha
  obtain ⟨hpos, hrunning⟩ := h.held hj hmem hholds
  obtain ⟨hcaller, hunsignalled⟩ := h.callers a hmem
  rw [hpc] at hcaller
  have hold := h.jobs j b hj
  have hget := getElem?_put (y := b') hj
  -- Nothing that another caller relies on is taken back: the job keeps its hash and its result.
  have hgrows : Grows t { t with
      callers := t.callers.set c { a with pc := .done (.job j) result }
      jobs := t.jobs.set j b' } := by
    refine ⟨fun k x hx => ?_, fun i r hr => ⟨r, hr, rfl, fun _ => id⟩⟩
    by_cases hk : k = j
    · subst hk
      rw [hj] at hx
      obtain rfl := Option.some.inj hx
      refine ⟨b', (hget k).trans (if_pos rfl), hhash, fun hb => ?_, fun r hs => ?_⟩
      · rw [hrunning] at hb
        cases hb
      · obtain ⟨hst, hab⟩ := hstage hs.1
        exact ⟨hsettled.trans hs.1, hab.trans hs.2.1, hst.trans hs.2.2⟩
    · exact ⟨x, (hget k).trans ((if_neg hk).trans hx), rfl, id, fun _ => id⟩
  have hseats : Seats t (t.callers.set c { a with pc := .done (.job j) result })
      { a with pc := .done (.job j) result } fun k => if a.holds k then 1 else 0 := seats_set ha rfl
  -- The seat of the caller holds the job no longer, so the count goes down by one.
  have hcount := hseats.count j
  rw [if_pos hholds, if_neg (by intro heq; cases heq)] at hcount
  have hdone : PcOk { t with
      callers := t.callers.set c { a with pc := .done (.job j) result }
      jobs := t.jobs.set j b' } a.hash a.aborted (.done (.job j) result) := by
    have hdone : PcOk t a.hash a.aborted (.done (.job j) result) := hcaller
    exact hdone.grows hgrows
  refine h.reseat hseats hgrows hget ⟨?_, fun hs => ?_, fun hb => ⟨(hempty hb).1, fun x hx hjoined => ?_⟩,
    fun hs => ?_, hresult⟩ hdone hunsignalled (fun k hk => (Option.some.inj hk).symm) (fun k hk => ?_)
    (fun k x _ hx => (h.jobs k x hx).listed) (fun hash k hk => ?_)
  · show b'.waiters = _
    rw [hwaiters, hold.waiters]
    exact (Nat.sub_eq_of_eq_add hcount.symm)
  · rw [hhash]
    exact hold.listed (hsettled.symm.trans hs)
  · -- The job has not ended, so whoever has left it was cancelled.
    have hzero : (t.callers.set c { a with pc := .done (.job j) result }).countP (Caller.holds j) = 0 := by
      have hw := hold.waiters
      have hz := (hempty hb).1
      omega
    have hfree := List.countP_eq_zero.mp hzero x hx
    -- Whoever is still listed with the job has left it, with its own cancellation or with a result.
    have hxok : PcOk { t with
        callers := t.callers.set c { a with pc := .done (.job j) result }
        jobs := t.jobs.set j b' } x.hash x.aborted x.pc := by
      rcases hseats.mem x hx with hx | rfl
      · exact (h.callers x hx).1.grows hgrows
      · exact hdone
    cases hxpc : x.pc with
    | behind k =>
      rw [hxpc] at hjoined
      cases hjoined
    | waiting i =>
      rw [hxpc] at hjoined
      cases hjoined
    | inside k =>
      rw [hxpc] at hjoined
      obtain rfl := Option.some.inj hjoined
      refine absurd ?_ hfree
      show x.pc.holds k = true
      rw [hxpc]
      exact beq_self_eq_true k
    | leaving k r =>
      rw [hxpc] at hjoined
      obtain rfl := Option.some.inj hjoined
      refine absurd ?_ hfree
      show x.pc.holds k = true
      rw [hxpc]
      exact beq_self_eq_true k
    | done origin r =>
      rw [hxpc] at hjoined hxok
      cases origin with
      | direct => cases hjoined
      | recovery i => cases hjoined
      | job k =>
        obtain rfl := Option.some.inj hjoined
        obtain ⟨y, hy, -, hcase⟩ := hxok
        have hy' : (t.jobs.set k b')[k]? = some y := hy
        rw [hget, if_pos rfl] at hy'
        obtain rfl := Option.some.inj hy'
        rcases hcase with hown | hserved
        · exact hown.2
        -- A result would mean that the job has settled, and an abandoned one has not.
        · have hs := hsettled.symm.trans hserved.1
          rw [(hempty hb).2] at hs
          cases hs
  · have hs' : b.settled = true := hsettled.symm.trans hs
    obtain ⟨r, hr⟩ := hold.ended hs'
    exact ⟨r, (hstage hs').1.trans hr⟩
  · show (if a.pc.holds k then 1 else 0) = 0
    rw [hpc]
    exact if_neg (fun heq => hk (beq_iff_eq.mp heq).symm)
  · obtain ⟨x, hx, hh, hs⟩ := h.listed hash k hk
    by_cases heq : k = j
    · subst heq
      rw [hj] at hx
      obtain rfl := Option.some.inj hx
      exact ⟨b', (hget k).trans (if_pos rfl), hhash.trans hh, hsettled.trans hs⟩
    · exact ⟨x, (hget k).trans ((if_neg heq).trans hx), hh, hs⟩

/-- A caller leaves its job. -/
theorem Inv.left (h : Inv t) {c j : Nat} {a : Caller H} {b : Job H} {result : Result}
    (ha : t.callers[c]? = some a) (hpc : a.pc = .leaving j result) (hj : t.jobs[j]? = some b) :
    Inv ((t.setPc c a (.done (.job j) result)).left j { b with waiters := b.waiters - 1 }) := by
  have hholds : a.holds j = true := by
    show a.pc.holds j = true
    rw [hpc]
    exact beq_self_eq_true j
  obtain ⟨-, hrunning⟩ := h.held hj (List.mem_of_getElem? ha) hholds
  have hres := (h.jobs j b hj).result
  unfold Transport.left Transport.abandon
  split
  next hlast =>
    obtain ⟨hzero, hopen⟩ := hlast
    have hopen' : b.settled = false := hopen
    have hlate : ¬b.settled = true := by
      rw [hopen']
      exact Bool.false_ne_true
    split
    · have hset : Inv { t.setPc c a (.done (.job j) result) with
          jobs := t.jobs.set j { b with
            waiters := b.waiters - 1
            aborted := true
            stage := .returned (.error .abandoned) } } := by
        refine h.leaves ha hpc hj rfl rfl rfl (fun hs => absurd hs hlate)
          (fun _ => ⟨hzero, hopen⟩) fun r hr => ?_
        obtain rfl := Stage.returned.inj hr
        exact ⟨(by intro heq; cases heq), fun _ => rfl⟩
      exact hset.drop _ _
    · exact h.leaves ha hpc hj rfl rfl rfl (fun hs => absurd hs hlate)
        (fun _ => ⟨hzero, hopen⟩) fun r hr => ⟨(hres r hr).1, fun _ => rfl⟩
  · refine h.leaves ha hpc hj rfl rfl rfl (fun _ => ⟨rfl, rfl⟩) (fun hb => ?_) hres
    have hb' : b.aborted = true := hb
    rw [hrunning] at hb'
    cases hb'

omit [DecidableEq H] in
/-- **A caller that is in no job**, new or in the place of one that was in none. -/
theorem Inv.sit (h : Inv t) {callers : List (Caller H)} {a : Caller H} {n : Nat → Nat}
    (hseats : Seats t callers a n) (hn : ∀ k, n k = 0) (ha : PcOk t a.hash a.aborted a.pc)
    (hunsignalled : a.signal = false → a.aborted = false) (hjoined : a.pc.joined = none) :
    Inv { t with callers } := by
  have hgrows : Grows t { t with callers } :=
    ⟨fun j b hb => ⟨b, hb, rfl, id, fun _ => id⟩, fun i r hr => ⟨r, hr, rfl, fun _ => id⟩⟩
  refine ⟨fun x hx => ?_, fun k b hb => ?_, h.listed, fun i r hr => ?_, h.current⟩
  · rcases hseats.mem x hx with hx | rfl
    · exact ⟨(h.callers x hx).1.grows hgrows, (h.callers x hx).2⟩
    · exact ⟨ha.grows hgrows, hunsignalled⟩
  · have hold := h.jobs k b hb
    refine ⟨?_, hold.listed, fun hb' => ⟨(hold.empty hb').1, fun y hy hj => ?_⟩, hold.ended, hold.result⟩
    · have hcount := hseats.count k
      have hfree : a.holds k = false := not_holds hjoined k
      rw [hn k, hfree, if_neg Bool.false_ne_true] at hcount
      exact hold.waiters.trans hcount.symm
    · rcases hseats.mem y hy with hy | rfl
      · exact (hold.empty hb').2 y hy hj
      · rw [hjoined] at hj
        cases hj
  · have hold := h.recoveries i r hr
    refine ⟨hold.current, fun c hc => ?_, hold.result⟩
    obtain ⟨x, hx, hs⟩ := hold.opening c hc
    obtain ⟨y, hy, hsy⟩ := hseats.keep c x hx
    exact ⟨y, hy, hsy.trans hs⟩

omit [DecidableEq H] in
/-- The entry of a job is not one caller's own cancellation. -/
theorem entry_plain (b : Job H) : b.entry ≠ .error .own ∧ b.entry ≠ .error .abandoned := by
  unfold Job.entry
  split
  · exact ⟨(by intro heq; cases heq), (by intro heq; cases heq)⟩
  · split
    · exact ⟨(by intro heq; cases heq), (by intro heq; cases heq)⟩
    · exact ⟨(by intro heq; cases heq), (by intro heq; cases heq)⟩

omit [DecidableEq H] in
/-- An entry is that of a finished job. -/
theorem entry_cases {hash : H} {result : Result} (h : t.entry hash = some result) :
    ∃ j b, t.entries hash = some j ∧ t.jobs[j]? = some b ∧ result = b.entry := by
  obtain ⟨b, hb, heq⟩ := Option.map_eq_some_iff.mp h
  obtain ⟨j, hj, hget⟩ := Option.bind_eq_some_iff.mp hb
  exact ⟨j, b, hj, hget, heq.symm⟩

/-- What `open` does in its first turn. -/
inductive Entered (t : Transport H) (hash : H) (metadata aborted : Bool) : Transport H × Pc → Prop
  | cancelled (h : aborted = true) : Entered t hash metadata aborted (t, .done .direct (.error .own))
  | behind (h : aborted = false) {j : Nat} {b : Job H} (hlisted : t.openingJobs hash = some j)
      (hj : t.jobs[j]? = some b) (hb : b.aborted = true) :
      Entered t hash metadata aborted (t, .behind j)
  | joins (h : aborted = false) {j : Nat} {b : Job H} (hlisted : t.openingJobs hash = some j)
      (hj : t.jobs[j]? = some b) (hb : b.aborted = false) :
      Entered t hash metadata aborted
        ({ t with jobs := t.jobs.modify j fun b => { b with waiters := b.waiters + 1 } }, .inside j)
  | present (h : aborted = false) {result : Result} (hlisted : t.openingJobs hash = none)
      (hentry : t.entry hash = some result) :
      Entered t hash metadata aborted (t, .done .direct result)
  | creates (h : aborted = false) (hlisted : t.openingJobs hash = none) (hentry : t.entry hash = none) :
      Entered t hash metadata aborted
        ({ t with
            jobs := t.jobs ++ [newJob hash metadata]
            openingJobs := Function.update t.openingJobs hash (some t.jobs.length) },
          .inside t.jobs.length)

/-- **The first turn of `open`**: it ends at once, waits, joins a job or begins one. -/
theorem Inv.entered (h : Inv t) (hash : H) (metadata aborted : Bool) :
    Entered t hash metadata aborted (t.enter hash metadata aborted) := by
  unfold Transport.enter
  split
  next haborted => exact .cancelled haborted
  next haborted =>
    rw [Bool.not_eq_true] at haborted
    split
    next j hlisted =>
      obtain ⟨b, hj, -, -⟩ := h.listed hash j hlisted
      rw [hj, Option.any_some]
      split
      next hb => exact .behind haborted hlisted hj hb
      next hb => exact .joins haborted hlisted hj (Bool.not_eq_true _ ▸ hb)
    next hlisted =>
      split
      next result hentry => exact .present haborted hlisted hentry
      next hentry => exact .creates haborted hlisted hentry

/-- **A call of `open`.** -/
theorem Inv.enter (h : Inv t) {metadata : Bool} {callers : List (Caller H)} {a : Caller H} {n : Nat → Nat}
    (hseats : Seats t callers a n) (hn : ∀ k, n k = 0)
    (hunsignalled : a.signal = false → a.aborted = false)
    (hpc : a.pc = (t.enter a.hash metadata a.aborted).2) :
    Inv { (t.enter a.hash metadata a.aborted).1 with callers } := by
  have hspec := h.entered a.hash metadata a.aborted
  generalize t.enter a.hash metadata a.aborted = entered at hspec hpc
  cases hspec with
  | cancelled haborted =>
    refine h.sit hseats hn ?_ hunsignalled (by rw [hpc]; rfl)
    rw [hpc]
    exact ⟨fun _ => haborted, (by intro heq; cases heq)⟩
  | behind haborted hlisted hj hb =>
    refine h.sit hseats hn ?_ hunsignalled (by rw [hpc]; rfl)
    rw [hpc]
    obtain ⟨x, hx, hhash, -⟩ := h.listed _ _ hlisted
    rw [hj] at hx
    obtain rfl := Option.some.inj hx
    exact ⟨haborted, _, hj, hhash, hb⟩
  | present haborted hlisted hentry =>
    refine h.sit hseats hn ?_ hunsignalled (by rw [hpc]; rfl)
    rw [hpc]
    obtain ⟨j, b, -, -, rfl⟩ := entry_cases hentry
    exact ⟨fun heq => absurd heq (entry_plain b).1, (entry_plain b).2⟩
  -- The job that is listed has one caller more, and nothing else of it changes.
  | @joins haborted j b hlisted hj hb =>
    have hpc' : a.pc = .inside j := hpc
    have hget := getElem?_alter hj fun b => { b with waiters := b.waiters + 1 }
    obtain ⟨x, hx, hhash, hopen⟩ := h.listed _ _ hlisted
    rw [hj] at hx
    obtain rfl := Option.some.inj hx
    have hgrows : Grows t { t with
        callers := callers
        jobs := t.jobs.modify j fun b => { b with waiters := b.waiters + 1 } } := by
      refine ⟨fun k x hx => ?_, fun i r hr => ⟨r, hr, rfl, fun _ => id⟩⟩
      by_cases hk : k = j
      · subst hk
        rw [hj] at hx
        obtain rfl := Option.some.inj hx
        exact ⟨_, (hget k).trans (if_pos rfl), rfl, id, fun _ => id⟩
      · exact ⟨x, (hget k).trans ((if_neg hk).trans hx), rfl, id, fun _ => id⟩
    have hold := h.jobs j b hj
    refine h.reseat hseats hgrows hget ⟨?_, hold.listed, fun hb' => ?_, hold.ended, hold.result⟩ ?_
      hunsignalled (fun k hk => ?_) (fun k _ => hn k) (fun k x _ hx => (h.jobs k x hx).listed)
      (fun hash k hk => ?_)
    · have hcount := hseats.count j
      have hyes : a.holds j = true := by
        show a.pc.holds j = true
        rw [hpc']
        exact beq_self_eq_true j
      rw [hn j, hyes, if_pos rfl] at hcount
      show b.waiters + 1 = _
      rw [hold.waiters]
      exact hcount.symm
    · have hb'' : b.aborted = true := hb'
      rw [hb] at hb''
      cases hb''
    · rw [hpc']
      exact ⟨haborted, _, (hget j).trans (if_pos rfl), hhash⟩
    · rw [hpc'] at hk
      exact (Option.some.inj hk).symm
    · obtain ⟨x, hx, hh, hs⟩ := h.listed hash k hk
      by_cases heq : k = j
      · subst heq
        rw [hj] at hx
        obtain rfl := Option.some.inj hx
        exact ⟨_, (hget k).trans (if_pos rfl), hh, hs⟩
      · exact ⟨x, (hget k).trans ((if_neg heq).trans hx), hh, hs⟩
  | creates haborted hlisted hentry =>
    have hpc' : a.pc = .inside t.jobs.length := hpc
    have hlast : t.jobs[t.jobs.length]? = none := List.getElem?_eq_none le_rfl
    have hget : ∀ k, (t.jobs ++ [newJob a.hash metadata])[k]? =
        if k = t.jobs.length then some (newJob a.hash metadata) else t.jobs[k]? :=
      getElem?_more _ _
    -- The new job has an index that no other has.
    have hold : ∀ (k : Nat) x, t.jobs[k]? = some x → k ≠ t.jobs.length := by
      intro k x hx heq
      rw [heq, hlast] at hx
      cases hx
    have hgrows : Grows t { t with
        callers := callers
        jobs := t.jobs ++ [newJob a.hash metadata]
        openingJobs := Function.update t.openingJobs a.hash (some t.jobs.length) } := by
      refine ⟨fun k x hx => ?_, fun i r hr => ⟨r, hr, rfl, fun _ => id⟩⟩
      exact ⟨x, (hget k).trans ((if_neg (hold k x hx)).trans hx), rfl, id, fun _ => id⟩
    -- So no caller is in it yet.
    have hnobody : t.callers.countP (Caller.holds t.jobs.length) = 0 := by
      rw [List.countP_eq_zero]
      intro x hx hyes
      have hxok := (h.callers x hx).1
      have hyes' : x.pc.holds t.jobs.length = true := hyes
      cases hxpc : x.pc with
      | inside k =>
        rw [hxpc] at hyes' hxok
        obtain ⟨-, y, hy, -⟩ := hxok
        exact hold k y hy (beq_iff_eq.mp hyes')
      | leaving k r =>
        rw [hxpc] at hyes' hxok
        obtain ⟨y, hy, -⟩ := hxok
        exact hold k y hy (beq_iff_eq.mp hyes')
      | behind k =>
        rw [hxpc] at hyes'
        cases hyes'
      | waiting i =>
        rw [hxpc] at hyes'
        cases hyes'
      | done origin r =>
        rw [hxpc] at hyes'
        cases hyes'
    refine h.reseat hseats hgrows hget ⟨?_, fun _ => ?_, fun hb => ?_, fun hs => ?_, fun r hr => ?_⟩ ?_
      hunsignalled (fun k hk => ?_) (fun k _ => hn k) (fun k x _ hx hs => ?_) (fun hash k hk => ?_)
    · have hcount := hseats.count t.jobs.length
      have hyes : a.holds t.jobs.length = true := by
        show a.pc.holds t.jobs.length = true
        rw [hpc']
        exact beq_self_eq_true _
      rw [hn, hyes, if_pos rfl, hnobody] at hcount
      exact hcount.symm
    · exact Function.update_self _ _ _
    · cases hb
    · cases hs
    · cases hr
    · rw [hpc']
      exact ⟨haborted, _, (hget _).trans (if_pos rfl), rfl⟩
    · rw [hpc'] at hk
      exact (Option.some.inj hk).symm
    -- No other job is listed under the hash: there was none when the new one was made.
    · have hne : x.hash ≠ a.hash := by
        intro heq
        have hother := (h.jobs k x hx).listed hs
        rw [heq, hlisted] at hother
        cases hother
      exact (Function.update_of_ne hne _ _).trans ((h.jobs k x hx).listed hs)
    · have hk' : Function.update t.openingJobs a.hash (some t.jobs.length) hash = some k := hk
      by_cases heq : hash = a.hash
      · subst heq
        rw [Function.update_self] at hk'
        rw [← Option.some.inj hk']
        exact ⟨_, (hget _).trans (if_pos rfl), rfl, rfl⟩
      · rw [Function.update_of_ne heq] at hk'
        obtain ⟨x, hx, hh, hs⟩ := h.listed hash k hk'
        exact ⟨x, (hget k).trans ((if_neg (hold k x hx)).trans hx), hh, hs⟩

/-- It touches no caller and no recovery. -/
theorem enter_frame (t : Transport H) (hash : H) (metadata aborted : Bool) :
    (t.enter hash metadata aborted).1.callers = t.callers ∧
      (t.enter hash metadata aborted).1.recoveries = t.recoveries ∧
      (t.enter hash metadata aborted).1.recovering = t.recovering := by
  unfold Transport.enter
  split
  · exact ⟨rfl, rfl, rfl⟩
  · split
    · split
      · exact ⟨rfl, rfl, rfl⟩
      · exact ⟨rfl, rfl, rfl⟩
    · split
      · exact ⟨rfl, rfl, rfl⟩
      · exact ⟨rfl, rfl, rfl⟩

/-- `open` adds one caller and touches no recovery. -/
theorem open_frame (t : Transport H) (hash : H) (metadata : Bool) (signal : Option Bool) :
    (∃ pc, (t.open hash metadata signal).callers = t.callers ++ [newCaller hash metadata signal pc]) ∧
      (t.open hash metadata signal).recoveries = t.recoveries ∧
      (t.open hash metadata signal).recovering = t.recovering := by
  obtain ⟨hcallers, hrecoveries, hrecovering⟩ := enter_frame t hash metadata (signal.getD false)
  exact ⟨⟨(t.enter hash metadata (signal.getD false)).2, congrArg (· ++ [_]) hcallers⟩, hrecoveries,
    hrecovering⟩

/-- A caller without a signal is not aborted. -/
theorem getD_of_not_isSome {signal : Option Bool} (h : signal.isSome = false) :
    signal.getD false = false := by
  cases signal with
  | none => rfl
  | some b => cases h

/-- `open` keeps the invariant. -/
theorem Inv.open (h : Inv t) (hash : H) (metadata : Bool) (signal : Option Bool) :
    Inv (t.open hash metadata signal) := by
  have hseats := seats_append t
    (newCaller hash metadata signal (t.enter hash metadata (signal.getD false)).2)
  have hnew := h.enter hseats (fun _ => rfl) getD_of_not_isSome rfl
  rw [← (enter_frame t hash metadata (signal.getD false)).1] at hnew
  exact hnew

/-- `remove` touches no caller and no recovery. -/
theorem remove_frame (t : Transport H) (hash hash' : H) :
    (t.remove hash).callers = t.callers ∧ (t.remove hash).recoveries = t.recoveries ∧
      (t.remove hash).recovering hash' = t.recovering hash' := by
  unfold Transport.remove
  split
  · exact ⟨rfl, rfl, rfl⟩
  · exact ⟨rfl, rfl, rfl⟩

/-- **A new recovery.** -/
theorem Inv.addRecovery (h : Inv t) {hash : H} {stage : Repair} (hfree : t.recovering hash = none)
    (hrunning : ∀ result, stage ≠ .settled result)
    (hopening : ∀ c, stage = .opening c → ∃ a, t.callers[c]? = some a ∧ a.signal = false) :
    Inv (t.addRecovery hash stage).1 := by
  have hget := getElem?_more t.recoveries (Recovery.mk hash stage)
  have hold : ∀ (k : Nat) x, t.recoveries[k]? = some x → k ≠ t.recoveries.length := by
    intro k x hx heq
    rw [heq, List.getElem?_eq_none le_rfl] at hx
    cases hx
  have hgrows : Grows t (t.addRecovery hash stage).1 :=
    ⟨fun k b hb => ⟨b, hb, rfl, id, fun _ => id⟩,
      fun k r hr => ⟨r, (hget k).trans ((if_neg (hold k r hr)).trans hr), rfl, fun _ => id⟩⟩
  refine ⟨fun x hx => ⟨(h.callers x hx).1.grows hgrows, (h.callers x hx).2⟩, fun k b hb => ?_, h.listed,
    fun k r hr => ?_, fun hash' k hk => ?_⟩
  · have hj := h.jobs k b hb
    exact ⟨hj.waiters, hj.listed, hj.empty, hj.ended, hj.result⟩
  · have hr' : (t.recoveries ++ [Recovery.mk hash stage])[k]? = some r := hr
    rw [hget] at hr'
    split at hr'
    next hk =>
      obtain rfl := Option.some.inj hr'
      rw [hk]
      exact ⟨fun _ => Function.update_self _ _ _, hopening, fun result hs => absurd hs (hrunning result)⟩
    next hk =>
      have hx := h.recoveries k r hr'
      refine ⟨fun hs => ?_, hx.opening, hx.result⟩
      have hcurrent := hx.current hs
      have hne : r.hash ≠ hash := by
        intro heq
        rw [heq, hfree] at hcurrent
        cases hcurrent
      exact (Function.update_of_ne hne _ _).trans hcurrent
  · have hk' : Function.update t.recovering hash (some t.recoveries.length) hash' = some k := hk
    by_cases heq : hash' = hash
    · rw [heq, Function.update_self] at hk'
      rw [← Option.some.inj hk']
      exact ⟨_, (hget _).trans (if_pos rfl), heq.symm⟩
    · rw [Function.update_of_ne heq] at hk'
      obtain ⟨r, hr, hh⟩ := h.current hash' k hk'
      exact ⟨r, (hget k).trans ((if_neg (hold k r hr)).trans hr), hh⟩

omit [DecidableEq H] in
/-- **A recovery goes on.** -/
theorem Inv.setRecovery (h : Inv t) {i : Nat} {r : Recovery H} {stage : Repair}
    (hi : t.recoveries[i]? = some r) (hrunning : ∀ result, r.stage ≠ .settled result)
    (hopening : ∀ c, stage = .opening c → ∃ a, t.callers[c]? = some a ∧ a.signal = false)
    (hresult : ∀ result, stage = .settled result →
      result ≠ .error .own ∧ result ≠ .error .abandoned) :
    Inv { t with recoveries := t.recoveries.set i { r with stage } } := by
  have hget := getElem?_put (y := { r with stage }) hi
  have hgrows : Grows t { t with recoveries := t.recoveries.set i { r with stage } } := by
    refine ⟨fun k b hb => ⟨b, hb, rfl, id, fun _ => id⟩, fun k x hx => ?_⟩
    by_cases hk : k = i
    · subst hk
      rw [hi] at hx
      obtain rfl := Option.some.inj hx
      exact ⟨_, (hget k).trans (if_pos rfl), rfl, fun result hs => absurd hs (hrunning result)⟩
    · exact ⟨x, (hget k).trans ((if_neg hk).trans hx), rfl, fun _ => id⟩
  refine ⟨fun x hx => ⟨(h.callers x hx).1.grows hgrows, (h.callers x hx).2⟩, fun k b hb => ?_, h.listed,
    fun k x hx => ?_, fun hash k hk => ?_⟩
  · have hj := h.jobs k b hb
    exact ⟨hj.waiters, hj.listed, hj.empty, hj.ended, hj.result⟩
  · have hx' : (t.recoveries.set i { r with stage })[k]? = some x := hx
    rw [hget] at hx'
    split at hx'
    next hk =>
      obtain rfl := Option.some.inj hx'
      rw [hk]
      exact ⟨fun _ => (h.recoveries i r hi).current hrunning, hopening, hresult⟩
    · have hx := h.recoveries k x hx'
      exact ⟨hx.current, hx.opening, hx.result⟩
  · obtain ⟨x, hx, hh⟩ := h.current hash k hk
    by_cases heq : k = i
    · subst heq
      rw [hi] at hx
      obtain rfl := Option.some.inj hx
      exact ⟨_, (hget k).trans (if_pos rfl), hh⟩
    · exact ⟨x, (hget k).trans ((if_neg heq).trans hx), hh⟩

omit [DecidableEq H] in
/-- A caller without a signal gets a result that no cancellation made. -/
theorem Inv.unsignalled (h : Inv t) {c : Nat} {a : Caller H} {origin : Origin} {result : Result}
    (ha : t.callers[c]? = some a) (hsignal : a.signal = false) (hpc : a.pc = .done origin result) :
    result ≠ .error .own ∧ result ≠ .error .abandoned := by
  obtain ⟨hok, hun⟩ := h.callers a (List.mem_of_getElem? ha)
  have hno : ¬a.aborted = true := by
    rw [hun hsignal]
    exact Bool.false_ne_true
  rw [hpc] at hok
  cases origin with
  | direct => exact ⟨fun heq => hno (hok.1 heq), hok.2⟩
  | job j =>
    obtain ⟨b, hb, -, hown | hserved⟩ := hok
    · exact absurd hown.2 hno
    · obtain ⟨h1, h2⟩ := (h.jobs j b hb).result result hserved.2.2
      refine ⟨h1, fun heq => ?_⟩
      have hfalse := h2 heq
      rw [hserved.2.1] at hfalse
      cases hfalse
  | recovery i =>
    obtain ⟨r, hr, -, hown | hserved⟩ := hok
    · exact absurd hown.2 hno
    · exact (h.recoveries i r hr).result result hserved

omit [DecidableEq H] in
/-- A caller may begin with a result of its own. -/
theorem Inv.begun (h : Inv t) {hash : H} {aborted : Bool} {result : Result}
    (hown : result = .error .own → aborted = true) (hplain : result ≠ .error .abandoned) :
    Inv t ∧ PcOk t hash aborted (.done .direct result) ∧ (Pc.done .direct result).joined = none :=
  ⟨h, ⟨hown, hplain⟩, rfl⟩

/-- `repair` keeps the invariant, and joins the recovery under way if there is one. -/
theorem Inv.repair (h : Inv t) (hash : H) (metadata kind aborted : Bool) :
    Inv (t.repair hash metadata kind aborted).1 ∧
      PcOk (t.repair hash metadata kind aborted).1 hash aborted (t.repair hash metadata kind aborted).2 ∧
      (t.repair hash metadata kind aborted).2.joined = none := by
  unfold Transport.repair
  split
  next haborted => exact h.begun (fun _ => haborted) (by intro heq; cases heq)
  next haborted =>
    rw [Bool.not_eq_true] at haborted
    have hwaiting : ∀ (t' : Transport H) (stage : Repair),
        PcOk (t'.addRecovery hash stage).1 hash aborted (t'.addRecovery hash stage).2 :=
      fun t' stage => ⟨haborted, _, (getElem?_more _ _ _).trans (if_pos rfl), rfl⟩
    split
    next i hcurrent =>
      obtain ⟨r, hr, hh⟩ := h.current hash i hcurrent
      exact ⟨h, ⟨haborted, r, hr, hh⟩, rfl⟩
    next hfree =>
      have hremembers : Inv (t.remember hash) := h.maps _ _
      split
      · exact h.begun (by intro heq; cases heq) (by intro heq; cases heq)
      · dsimp only
        split
        · exact hremembers.begun (by intro heq; cases heq) (by intro heq; cases heq)
        · split
          · obtain ⟨-, -, hrecovering⟩ := remove_frame (t.remember hash) hash hash
            exact ⟨(hremembers.remove hash).addRecovery (hrecovering.trans hfree)
              (by intro result heq; cases heq) (by intro c heq; cases heq), hwaiting _ _, rfl⟩
          · obtain ⟨⟨pc, hcallers⟩, -, hrecovering⟩ := open_frame (t.remember hash) hash true none
            refine ⟨(hremembers.open hash true none).addRecovery (hrecovering ▸ hfree)
              (by intro result heq; cases heq) fun c heq => ?_, hwaiting _ _, rfl⟩
            rw [hcallers, ← Repair.opening.inj heq]
            exact ⟨_, List.getElem?_concat_length, rfl⟩

/-- **A call of `recover`.** -/
theorem Inv.recover (h : Inv t) (hash : H) (metadata kind : Bool) (signal : Option Bool) :
    Inv (t.recover hash metadata kind signal) := by
  obtain ⟨hinv, hpc, hjoined⟩ := h.repair hash metadata kind (signal.getD false)
  exact hinv.sit (seats_append _ _) (fun _ => rfl) hpc getD_of_not_isSome hjoined

/-- A cancelled caller is still in its job, until it leaves. -/
theorem cancel_joined (pc : Pc) : pc.cancel.joined = pc.joined := by
  cases pc with
  | behind j => rfl
  | inside j => rfl
  | leaving j result => rfl
  | waiting i => rfl
  | done origin result => rfl

/-- So it is counted there. -/
theorem cancel_holds (pc : Pc) (j : Nat) : pc.cancel.holds j = pc.holds j := by
  cases pc with
  | behind j => rfl
  | inside j => rfl
  | leaving j result => rfl
  | waiting i => rfl
  | done origin result => rfl

omit [DecidableEq H] in
/-- A caller may be cancelled wherever it is. -/
theorem PcOk.cancel {hash : H} {aborted : Bool} {pc : Pc} (h : PcOk t hash aborted pc) :
    PcOk t hash true pc.cancel := by
  cases pc with
  | behind j => exact ⟨fun _ => rfl, (by intro heq; cases heq)⟩
  | inside j =>
    obtain ⟨-, b, hj, hh⟩ := h
    exact ⟨b, hj, hh, Or.inl ⟨rfl, rfl⟩⟩
  | leaving j result =>
    obtain ⟨b, hj, hh, hcase⟩ := h
    exact ⟨b, hj, hh, hcase.imp (fun hown => ⟨hown.1, rfl⟩) id⟩
  | waiting i =>
    obtain ⟨-, r, hr, hh⟩ := h
    exact ⟨r, hr, hh, Or.inl ⟨rfl, rfl⟩⟩
  | done origin result =>
    cases origin with
    | direct => exact ⟨fun _ => rfl, h.2⟩
    | job j =>
      obtain ⟨b, hj, hh, hcase⟩ := h
      exact ⟨b, hj, hh, hcase.imp (fun hown => ⟨hown.1, rfl⟩) id⟩
    | recovery i =>
      obtain ⟨r, hr, hh, hcase⟩ := h
      exact ⟨r, hr, hh, hcase.imp (fun hown => ⟨hown.1, rfl⟩) id⟩

omit [DecidableEq H] in
/-- **The abort of a caller's own signal.** -/
theorem Inv.cancel (h : Inv t) {c : Nat} {a : Caller H} (ha : t.callers[c]? = some a)
    (hsignal : a.signal = true) : Inv { t with callers := t.callers.set c a.cancel } := by
  have hok := (h.callers a (List.mem_of_getElem? ha)).1
  have hun : a.cancel.signal = false → a.cancel.aborted = false := by
    intro hs
    have hs' : a.signal = false := hs
    rw [hsignal] at hs'
    cases hs'
  exact h.setCaller ha hok.cancel rfl hun (fun j => cancel_holds a.pc j) (cancel_joined a.pc) fun _ => rfl

/-- A caller that waited behind an abandoned job opens again. -/
theorem Inv.resume (h : Inv t) {c j : Nat} {a : Caller H} (ha : t.callers[c]? = some a)
    (hpc : a.pc = .behind j) :
    Inv ((t.enter a.hash a.metadata a.aborted).1.setPc c a
      (t.enter a.hash a.metadata a.aborted).2) := by
  have hun := (h.callers a (List.mem_of_getElem? ha)).2
  have hseats : Seats t (t.callers.set c { a with pc := (t.enter a.hash a.metadata a.aborted).2 })
      { a with pc := (t.enter a.hash a.metadata a.aborted).2 } fun k => if a.holds k then 1 else 0 :=
    seats_set ha rfl
  have hnew := h.enter hseats (fun k => ?_) hun rfl
  · rw [← (enter_frame t a.hash a.metadata a.aborted).1] at hnew
    exact hnew
  · show (if a.pc.holds k then 1 else 0) = 0
    rw [hpc]
    rfl

omit [DecidableEq H] in
/-- A result is delivered to a caller. -/
theorem Inv.deliver (h : Inv t) {c : Nat} {a : Caller H} {t' : Transport H}
    (ha : t.callers[c]? = some a) (hstep : t.deliver c a = some t') : Inv t' := by
  have hmem := List.mem_of_getElem? ha
  obtain ⟨hok, hun⟩ := h.callers a hmem
  unfold Transport.deliver at hstep
  split at hstep
  next j hpc =>
    obtain ⟨result, hresult, rfl⟩ := Option.map_eq_some_iff.mp hstep
    obtain ⟨b, hj, hpromise⟩ := Option.bind_eq_some_iff.mp hresult
    have hholds : a.holds j = true := by
      show a.pc.holds j = true
      rw [hpc]
      exact beq_self_eq_true j
    obtain ⟨-, hrunning⟩ := h.held hj hmem hholds
    rw [hpc] at hok
    obtain ⟨-, x, hx, hh⟩ := hok
    rw [hj] at hx
    obtain rfl := Option.some.inj hx
    have hserved : Served b result := by
      unfold Job.promise at hpromise
      split at hpromise
      next r hstage =>
        split at hpromise
        next hsettled =>
          rw [← Option.some.inj hpromise]
          exact ⟨hsettled, hrunning, hstage⟩
        · cases hpromise
      · cases hpromise
    refine h.setCaller ha ⟨b, hj, hh, Or.inr hserved⟩ rfl hun (fun k => ?_) ?_ id
    · show Pc.holds k (.leaving j result) = a.pc.holds k
      rw [hpc]
      rfl
    · rw [hpc]
      rfl
  next i hpc =>
    split at hstep
    next result hstage =>
      obtain rfl := Option.some.inj hstep
      obtain ⟨r, hr, hs⟩ := Option.map_eq_some_iff.mp hstage
      rw [hpc] at hok
      obtain ⟨-, x, hx, hh⟩ := hok
      rw [hr] at hx
      obtain rfl := Option.some.inj hx
      refine h.setCaller ha ⟨r, hr, hh, Or.inr hs⟩ rfl hun (fun k => ?_) ?_ id
      · show Pc.holds k (.done _ result) = a.pc.holds k
        rw [hpc]
        rfl
      · rw [hpc]
        rfl
    · cases hstep
  · cases hstep

/-- **One step.** -/
theorem inv_step (t : Transport H) (e : Event H) (t' : Transport H) (h : Inv t)
    (hstep : step t e = some t') : Inv t' := by
  cases e with
  | «open» hash metadata signal =>
    rw [← Option.some.inj hstep]
    exact h.open hash metadata signal
  | recover hash metadata kind signal =>
    rw [← Option.some.inj hstep]
    exact h.recover hash metadata kind signal
  | abort c =>
    obtain ⟨a, ha, hstep⟩ := Option.bind_eq_some_iff.mp hstep
    split at hstep
    next hsignal =>
      rw [← Option.some.inj hstep]
      exact h.cancel ha hsignal.1
    · cases hstep
  | deliver c =>
    obtain ⟨a, ha, hstep⟩ := Option.bind_eq_some_iff.mp hstep
    exact h.deliver ha hstep
  | leave c =>
    obtain ⟨a, ha, hstep⟩ := Option.bind_eq_some_iff.mp hstep
    unfold Transport.leave at hstep
    split at hstep
    next j result hpc =>
      obtain ⟨b, hj, rfl⟩ := Option.map_eq_some_iff.mp hstep
      exact h.left ha hpc hj
    · cases hstep
  | resume c =>
    obtain ⟨a, ha, hstep⟩ := Option.bind_eq_some_iff.mp hstep
    unfold Transport.resume at hstep
    split at hstep
    next j hpc =>
      split at hstep
      · rw [← Option.some.inj hstep]
        exact h.resume ha hpc
      · cases hstep
    · cases hstep
  | job j turn =>
    obtain ⟨b, hj, hstep⟩ := Option.bind_eq_some_iff.mp hstep
    obtain ⟨b', hturn, rfl⟩ := Option.map_eq_some_iff.mp hstep
    exact h.turn hj hturn
  | settle j =>
    obtain ⟨b, hj, hstep⟩ := Option.bind_eq_some_iff.mp hstep
    split at hstep
    next result hstage =>
      split at hstep
      · cases hstep
      next hopen =>
        rw [Bool.not_eq_true] at hopen
        rw [← Option.some.inj hstep, if_pos ((h.jobs j b hj).listed hopen)]
        exact h.settle hj hstage hopen
    · cases hstep
  | removed i =>
    obtain ⟨r, hi, hstep⟩ := Option.bind_eq_some_iff.mp hstep
    split at hstep
    next hstage =>
      rw [← Option.some.inj hstep]
      obtain ⟨⟨pc, hcallers⟩, hrecoveries, -⟩ := open_frame t r.hash true none
      have hi' : (t.open r.hash true none).recoveries[i]? = some r := by
        rw [hrecoveries]
        exact hi
      -- The recovery opens the torrent again, as a caller without a signal, and waits for it.
      refine (h.open r.hash true none).setRecovery hi'
        (by intro result heq; rw [hstage] at heq; cases heq) (fun c heq => ?_)
        (by intro result heq; cases heq)
      rw [hcallers, ← Repair.opening.inj heq]
      exact ⟨_, List.getElem?_concat_length, rfl⟩
    · cases hstep
  | recovered i =>
    obtain ⟨r, hi, hstep⟩ := Option.bind_eq_some_iff.mp hstep
    split at hstep
    next c hstage =>
      split at hstep
      next origin result hpc =>
        rw [← Option.some.inj hstep]
        obtain ⟨a, ha, hpc⟩ := Option.map_eq_some_iff.mp hpc
        obtain ⟨x, hx, hsignal⟩ := (h.recoveries i r hi).opening c hstage
        rw [ha] at hx
        obtain rfl := Option.some.inj hx
        refine h.setRecovery hi (by intro res heq; rw [hstage] at heq; cases heq)
          (by intro k heq; cases heq) fun res heq => ?_
        rw [← Repair.settled.inj heq]
        -- That caller cannot be cancelled, so its result is that of its job.
        exact h.unsignalled ha hsignal hpc
      · cases hstep
    · cases hstep
  | cleared i =>
    obtain ⟨r, hi, hstep⟩ := Option.bind_eq_some_iff.mp hstep
    split at hstep
    next result hstage =>
      split at hstep
      next hcurrent =>
        rw [← Option.some.inj hstep]
        refine ⟨fun x hx => ?_, fun k b hb => ?_, h.listed, fun k x hk => ?_, fun hash k hk => ?_⟩
        · exact ⟨(h.callers x hx).1.grows ⟨fun j b hb => ⟨b, hb, rfl, id, fun _ => id⟩,
            fun k r hr => ⟨r, hr, rfl, fun _ => id⟩⟩, (h.callers x hx).2⟩
        · have hj := h.jobs k b hb
          exact ⟨hj.waiters, hj.listed, hj.empty, hj.ended, hj.result⟩
        · have hx := h.recoveries k x hk
          refine ⟨fun hs => ?_, hx.opening, hx.result⟩
          -- A recovery that has not settled is one for another hash.
          have hne : x.hash ≠ r.hash := by
            intro heq
            have hk' := hx.current hs
            rw [heq, hcurrent] at hk'
            obtain rfl := Option.some.inj hk'
            have hk'' : t.recoveries[i]? = some x := hk
            rw [hi] at hk''
            obtain rfl := Option.some.inj hk''
            exact hs result hstage
          exact (Function.update_of_ne hne _ _).trans (hx.current hs)
        · have hk' : Function.update t.recovering r.hash none hash = some k := hk
          by_cases heq : hash = r.hash
          · rw [heq, Function.update_self] at hk'
            cases hk'
          · rw [Function.update_of_ne heq] at hk'
            exact h.current hash k hk'
      · cases hstep
    · cases hstep

end Steps

/-! ## §2. Every run. -/

section Runs

/-- **Every run keeps the invariant.** -/
theorem inv_run {events : List (Event H)} {t : Transport H}
    (hrun : run step (Transport.empty H) events = some t) : Inv t :=
  run_keeps (fun t e t' h hstep => inv_step t e t' h hstep) events (Transport.empty H) t inv_empty hrun

variable {t : Transport H}

/-- What the promise that the caller awaits has settled with. -/
def Pc.result : Pc → Option Result
  | .leaving _ result => some result
  | .done _ result => some result
  | _ => none

/-- A cancellation does not take back a result. -/
theorem cancel_result {pc : Pc} {result : Result} (h : pc.result = some result) :
    pc.cancel.result = some result := by
  cases pc with
  | leaving j result' => exact h
  | done origin result' => exact h
  | behind j => cases h
  | inside j => cases h
  | waiting i => cases h

/-- A caller that still waits is rejected with the reason of its own signal. -/
theorem cancel_rejected {pc : Pc} (h : pc.result = none) : pc.cancel.result = some (.error .own) := by
  cases pc with
  | behind j => rfl
  | inside j => rfl
  | waiting i => rfl
  | leaving j result => cases h
  | done origin result => cases h

/-- Caller `c` has a result. -/
def Settles (callers : List (Caller H)) (c : Nat) (result : Result) : Prop :=
  ∃ a, callers[c]? = some a ∧ a.pc.result = some result

section Settles

variable {callers callers' : List (Caller H)} {c : Nat} {result : Result}

omit [DecidableEq H] in
/-- A result stays while callers are added. -/
theorem Settles.grows (h : Settles callers c result) (hmore : callers <+: callers') :
    Settles callers' c result := by
  obtain ⟨a, ha, hresult⟩ := h
  obtain ⟨more, rfl⟩ := hmore
  have hlt : c < callers.length := (List.getElem?_eq_some_iff.mp ha).1
  exact ⟨a, (List.getElem?_append_left hlt).trans ha, hresult⟩

omit [DecidableEq H] in
/-- One caller goes on, and keeps the result that it has. -/
theorem Settles.set (h : Settles callers c result) {d : Nat} {a a' : Caller H} (ha : callers[d]? = some a)
    (hkeep : a.pc.result = some result → a'.pc.result = some result) :
    Settles (callers.set d a') c result := by
  obtain ⟨x, hx, hresult⟩ := h
  by_cases heq : d = c
  · subst heq
    rw [ha] at hx
    obtain rfl := Option.some.inj hx
    exact ⟨a', List.getElem?_set_self (List.getElem?_eq_some_iff.mp ha).1, hkeep hresult⟩
  · exact ⟨x, (List.getElem?_set_ne heq).trans hx, hresult⟩

/-- `remove` touches no caller. -/
theorem remove_callers (t : Transport H) (hash : H) : (t.remove hash).callers = t.callers := by
  unfold Transport.remove
  cases t.entries hash with
  | none => rfl
  | some j => rfl

/-- Nor does dropping an entry. -/
theorem drop_callers (t : Transport H) (hash : H) (j : Nat) : (t.drop hash j).callers = t.callers := by
  unfold Transport.drop
  split
  · exact remove_callers t hash
  · rfl

/-- Nor does leaving a job. -/
theorem left_callers (t : Transport H) (j : Nat) (b : Job H) : (t.left j b).callers = t.callers := by
  unfold Transport.left
  split
  · unfold Transport.abandon
    split
    · exact drop_callers _ _ _
    · rfl
  · rfl

/-- Nor does what follows a turn of a job. -/
theorem after_callers (t : Transport H) (j : Nat) (b : Job H) (turn : Turn) :
    (t.after j b turn).callers = t.callers := by
  unfold Transport.after
  split
  · split
    · rfl
    · rfl
  · split
    · rfl
    · rfl
  · exact drop_callers t b.hash j
  · rfl

/-- `open` keeps the callers there are. -/
theorem open_callers (t : Transport H) (hash : H) (metadata : Bool) (signal : Option Bool) :
    t.callers <+: (t.open hash metadata signal).callers := by
  obtain ⟨⟨pc, hcallers⟩, -⟩ := open_frame t hash metadata signal
  rw [hcallers]
  exact List.prefix_append _ _

/-- So does `repair`. -/
theorem repair_callers (t : Transport H) (hash : H) (metadata kind aborted : Bool) :
    t.callers <+: (t.repair hash metadata kind aborted).1.callers := by
  unfold Transport.repair
  split
  · exact List.prefix_refl _
  · split
    · exact List.prefix_refl _
    · split
      · exact List.prefix_refl _
      · dsimp only
        split
        · exact List.prefix_refl _
        · split
          · show t.callers <+: ((t.remember hash).remove hash).callers
            rw [remove_callers]
            exact List.prefix_refl _
          · exact open_callers (t.remember hash) hash true none

/-- **A result is final**: no event changes it. -/
theorem settles_step {t t' : Transport H} {e : Event H} (hstep : step t e = some t')
    (h : Settles t.callers c result) : Settles t'.callers c result := by
  cases e with
  | «open» hash metadata signal =>
    rw [← Option.some.inj hstep]
    exact h.grows (open_callers t hash metadata signal)
  | recover hash metadata kind signal =>
    rw [← Option.some.inj hstep]
    exact h.grows ((repair_callers t hash metadata kind (signal.getD false)).trans (List.prefix_append _ _))
  | abort d =>
    obtain ⟨a, ha, hstep⟩ := Option.bind_eq_some_iff.mp hstep
    split at hstep
    · rw [← Option.some.inj hstep]
      exact h.set ha cancel_result
    · cases hstep
  | deliver d =>
    obtain ⟨a, ha, hstep⟩ := Option.bind_eq_some_iff.mp hstep
    unfold Transport.deliver at hstep
    split at hstep
    next j hpc =>
      obtain ⟨r, -, rfl⟩ := Option.map_eq_some_iff.mp hstep
      exact h.set ha fun hresult => by rw [hpc] at hresult; cases hresult
    next i hpc =>
      split at hstep
      · rw [← Option.some.inj hstep]
        exact h.set ha fun hresult => by rw [hpc] at hresult; cases hresult
      · cases hstep
    · cases hstep
  | leave d =>
    obtain ⟨a, ha, hstep⟩ := Option.bind_eq_some_iff.mp hstep
    unfold Transport.leave at hstep
    split at hstep
    next j r hpc =>
      obtain ⟨b, -, rfl⟩ := Option.map_eq_some_iff.mp hstep
      rw [left_callers]
      exact h.set ha fun hresult => by rw [hpc] at hresult; exact hresult
    · cases hstep
  | resume d =>
    obtain ⟨a, ha, hstep⟩ := Option.bind_eq_some_iff.mp hstep
    unfold Transport.resume at hstep
    split at hstep
    next j hpc =>
      split at hstep
      · rw [← Option.some.inj hstep]
        unfold Transport.setPc
        rw [(enter_frame t a.hash a.metadata a.aborted).1]
        exact h.set ha fun hresult => by rw [hpc] at hresult; cases hresult
      · cases hstep
    · cases hstep
  | job j turn =>
    obtain ⟨b, -, hstep⟩ := Option.bind_eq_some_iff.mp hstep
    obtain ⟨b', -, rfl⟩ := Option.map_eq_some_iff.mp hstep
    rw [after_callers]
    exact h
  | settle j =>
    obtain ⟨b, -, hstep⟩ := Option.bind_eq_some_iff.mp hstep
    split at hstep
    · split at hstep
      · cases hstep
      · rw [← Option.some.inj hstep]
        exact h
    · cases hstep
  | removed i =>
    obtain ⟨r, -, hstep⟩ := Option.bind_eq_some_iff.mp hstep
    split at hstep
    · rw [← Option.some.inj hstep]
      exact h.grows (open_callers t r.hash true none)
    · cases hstep
  | recovered i =>
    obtain ⟨r, -, hstep⟩ := Option.bind_eq_some_iff.mp hstep
    split at hstep
    · split at hstep
      · rw [← Option.some.inj hstep]
        exact h
      · cases hstep
    · cases hstep
  | cleared i =>
    obtain ⟨r, -, hstep⟩ := Option.bind_eq_some_iff.mp hstep
    split at hstep
    · split at hstep
      · rw [← Option.some.inj hstep]
        exact h
      · cases hstep
    · cases hstep

/-- **A result is final.** -/
theorem settles_run {t t' : Transport H} {events : List (Event H)} (hrun : run step t events = some t')
    (h : Settles t.callers c result) : Settles t'.callers c result :=
  run_keeps (I := fun t => Settles t.callers c result) (fun _ _ _ h hstep => settles_step hstep h)
    events t t' h hrun

end Settles

/-- **The abort of a signal** rejects its own caller, unless that has a result, and changes nothing
else. -/
theorem cancel_alone {c : Nat} {t' : Transport H} (hstep : step t (.abort c) = some t') :
    ∃ a callers, t.callers[c]? = some a ∧ t' = { t with callers } ∧
      (∀ d, d ≠ c → callers[d]? = t.callers[d]?) ∧
      (a.pc.result = none → Settles callers c (.error .own)) := by
  obtain ⟨a, ha, hstep⟩ := Option.bind_eq_some_iff.mp hstep
  split at hstep
  · have hlt : c < t.callers.length := (List.getElem?_eq_some_iff.mp ha).1
    refine ⟨a, _, ha, (Option.some.inj hstep).symm, fun d hd => List.getElem?_set_ne (Ne.symm hd),
      fun hopen => ⟨a.cancel, List.getElem?_set_self hlt, cancel_rejected hopen⟩⟩
  · cases hstep

/-- Where the result of a caller that was not cancelled comes from. -/
def Given (t : Transport H) (result : Result) : Origin → Prop
  | .direct => result ≠ .error .own ∧ result ≠ .error .abandoned
  | .job j => ∃ b, t.jobs[j]? = some b ∧ Served b result
  | .recovery i => ∃ r, t.recoveries[i]? = some r ∧ r.stage = .settled result

omit [DecidableEq H] in
/-- What a caller was given: its own cancellation only if it was cancelled, and never another's. -/
theorem Inv.given (h : Inv t) {a : Caller H} (ha : a ∈ t.callers) {origin : Origin} {result : Result}
    (hpc : a.pc = .done origin result) :
    (result = .error .own → a.aborted = true) ∧ result ≠ .error .abandoned ∧
      (a.aborted = false → Given t result origin) := by
  have hok := (h.callers a ha).1
  rw [hpc] at hok
  cases origin with
  | direct =>
    refine ⟨hok.1, hok.2, fun hno => ⟨fun heq => ?_, hok.2⟩⟩
    rw [hok.1 heq] at hno
    cases hno
  | job j =>
    obtain ⟨b, hj, -, ⟨rfl, hyes⟩ | hserved⟩ := hok
    · refine ⟨fun _ => hyes, (by intro heq; cases heq), fun hno => ?_⟩
      rw [hyes] at hno
      cases hno
    · obtain ⟨hown, habandoned⟩ := (h.jobs j b hj).result result hserved.2.2
      refine ⟨fun heq => absurd heq hown, fun heq => ?_, fun _ => ⟨b, hj, hserved⟩⟩
      have hfalse := habandoned heq
      rw [hserved.2.1] at hfalse
      cases hfalse
  | recovery i =>
    obtain ⟨r, hr, -, ⟨rfl, hyes⟩ | hserved⟩ := hok
    · refine ⟨fun _ => hyes, (by intro heq; cases heq), fun hno => ?_⟩
      rw [hyes] at hno
      cases hno
    · obtain ⟨hown, habandoned⟩ := (h.recoveries i r hr).result result hserved
      exact ⟨fun heq => absurd heq hown, habandoned, fun _ => ⟨r, hr, hserved⟩⟩

/-- What a caller finds that has waited for the abandoned job `j`: another job, which has not been
abandoned; the entry; or another job that has been abandoned meanwhile. -/
inductive Found (t t' : Transport H) (j : Nat) (hash : H) : Pc → Prop
  | fresh {k : Nat} {b : Job H} (hk : k ≠ j) (hb : t'.jobs[k]? = some b) (hhash : b.hash = hash)
      (hrunning : b.aborted = false ∧ b.settled = false) : Found t t' j hash (.inside k)
  | entry {result : Result} (h : t.entry hash = some result) : Found t t' j hash (.done .direct result)
  | again {k : Nat} {b : Job H} (hk : k ≠ j) (hb : t.jobs[k]? = some b)
      (hrunning : b.aborted = true ∧ b.settled = false) : Found t t' j hash (.behind k)

omit [DecidableEq H] in
/-- A settled job has promised what it returned. -/
theorem Inv.promised (h : Inv t) {j : Nat} {b : Job H} (hj : t.jobs[j]? = some b)
    (hsettled : b.settled = true) : ∃ result, b.promise = some result ∧ b.stage = .returned result := by
  obtain ⟨result, hstage⟩ := (h.jobs j b hj).ended hsettled
  refine ⟨result, ?_, hstage⟩
  unfold Job.promise
  rw [hstage]
  exact if_pos hsettled

/-- **A caller that has waited for an abandoned job.** -/
theorem Inv.resumes (h : Inv t) {c j : Nat} {a : Caller H} {b : Job H} (ha : t.callers[c]? = some a)
    (hpc : a.pc = .behind j) (hj : t.jobs[j]? = some b) (hsettled : b.settled = true) :
    ∃ t' a', step t (.resume c) = some t' ∧ t'.callers[c]? = some a' ∧ Found t t' j a.hash a'.pc := by
  obtain ⟨result, hpromise, -⟩ := h.promised hj hsettled
  have hok := (h.callers a (List.mem_of_getElem? ha)).1
  rw [hpc] at hok
  obtain ⟨hno, -⟩ := hok
  have hstep : step t (.resume c) =
      some ((t.enter a.hash a.metadata a.aborted).1.setPc c a
        (t.enter a.hash a.metadata a.aborted).2) := by
    show (t.callers[c]?).bind (fun a => t.resume c a) = _
    rw [ha, Option.bind_some]
    unfold Transport.resume
    rw [hpc]
    dsimp only
    rw [hj, Option.bind_some, hpromise]
    rfl
  have hlt : c < t.callers.length := (List.getElem?_eq_some_iff.mp ha).1
  refine ⟨_, { a with pc := (t.enter a.hash a.metadata a.aborted).2 }, hstep, ?_, ?_⟩
  · show ((t.enter a.hash a.metadata a.aborted).1.callers.set c _)[c]? = _
    rw [(enter_frame t a.hash a.metadata a.aborted).1]
    exact List.getElem?_set_self hlt
  · have hspec := h.entered a.hash a.metadata a.aborted
    show Found t _ j a.hash (t.enter a.hash a.metadata a.aborted).2
    generalize t.enter a.hash a.metadata a.aborted = entered at hspec
    have hother : ∀ (k : Nat) x, t.jobs[k]? = some x → x.settled = false → k ≠ j := by
      intro k x hx hs heq
      rw [heq, hj] at hx
      rw [← Option.some.inj hx, hsettled] at hs
      cases hs
    cases hspec with
    | cancelled haborted =>
      rw [hno] at haborted
      cases haborted
    | @behind haborted k x hlisted hk hx =>
      obtain ⟨y, hy, -, hopen⟩ := h.listed _ _ hlisted
      rw [hk] at hy
      obtain rfl := Option.some.inj hy
      exact .again (hother k _ hk hopen) hk ⟨hx, hopen⟩
    | @joins haborted k x hlisted hk hx =>
      obtain ⟨y, hy, hhash, hopen⟩ := h.listed _ _ hlisted
      rw [hk] at hy
      obtain rfl := Option.some.inj hy
      exact .fresh (hother k _ hk hopen) ((getElem?_alter hk _ _).trans (if_pos rfl)) hhash ⟨hx, hopen⟩
    | present haborted hlisted hentry => exact .entry hentry
    | creates haborted hlisted hentry =>
      refine .fresh (fun heq => ?_) ((getElem?_more _ _ _).trans (if_pos rfl)) rfl ⟨rfl, rfl⟩
      rw [← heq, List.getElem?_eq_none le_rfl] at hj
      cases hj

/-- What a caller that has no result yet is waiting for, or can do next. -/
inductive Pending (t : Transport H) (c : Nat) (a : Caller H) : Prop
  | ended {origin : Origin} {result : Result} (h : a.pc = .done origin result) : Pending t c a
  | job {j : Nat} {b : Job H} (hj : t.jobs[j]? = some b) (hopen : b.settled = false)
      (h : a.pc = .inside j ∨ a.pc = .behind j) : Pending t c a
  | recovery {i : Nat} {r : Recovery H} (hi : t.recoveries[i]? = some r)
      (hrunning : ∀ result, r.stage ≠ .settled result) (h : a.pc = .waiting i) : Pending t c a
  | moves {t' : Transport H}
      (h : step t (.deliver c) = some t' ∨ step t (.leave c) = some t' ∨ step t (.resume c) = some t') :
      Pending t c a

/-- **No caller is forgotten.** -/
theorem Inv.pending (h : Inv t) {c : Nat} {a : Caller H} (ha : t.callers[c]? = some a) :
    Pending t c a := by
  have hok := (h.callers a (List.mem_of_getElem? ha)).1
  have hbind : ∀ f : Caller H → Option (Transport H), (t.callers[c]?).bind f = f a := by
    intro f
    rw [ha]
    rfl
  cases hpc : a.pc with
  | behind j =>
    rw [hpc] at hok
    obtain ⟨-, b, hj, -⟩ := hok
    cases hs : b.settled with
    | false => exact .job hj hs (Or.inr hpc)
    | true =>
      obtain ⟨t', a', hstep, -⟩ := h.resumes ha hpc hj hs
      exact .moves (Or.inr (Or.inr hstep))
  | inside j =>
    rw [hpc] at hok
    obtain ⟨-, b, hj, -⟩ := hok
    cases hs : b.settled with
    | false => exact .job hj hs (Or.inl hpc)
    | true =>
      -- A job that has settled has a promise, so its result can be delivered.
      obtain ⟨result, hpromise, -⟩ := h.promised hj hs
      have hstep : step t (.deliver c) = some (t.setPc c a (.leaving j result)) := by
        show (t.callers[c]?).bind (fun a => t.deliver c a) = _
        rw [hbind]
        unfold Transport.deliver
        rw [hpc]
        dsimp only
        rw [hj, Option.bind_some, hpromise]
        rfl
      exact .moves (Or.inl hstep)
  | leaving j result =>
    rw [hpc] at hok
    obtain ⟨b, hj, -⟩ := hok
    have hstep : step t (.leave c) = some
        ((t.setPc c a (.done (.job j) result)).left j { b with waiters := b.waiters - 1 }) := by
      show (t.callers[c]?).bind (fun a => t.leave c a) = _
      rw [hbind]
      unfold Transport.leave
      rw [hpc]
      dsimp only
      rw [hj]
      rfl
    exact .moves (Or.inr (Or.inl hstep))
  | waiting i =>
    rw [hpc] at hok
    obtain ⟨-, r, hr, -⟩ := hok
    cases hs : r.stage with
    | removing => exact .recovery hr (by intro result heq; rw [hs] at heq; cases heq) hpc
    | opening k => exact .recovery hr (by intro result heq; rw [hs] at heq; cases heq) hpc
    | settled result =>
      have hstep : step t (.deliver c) = some (t.setPc c a (.done (.recovery i) result)) := by
        show (t.callers[c]?).bind (fun a => t.deliver c a) = _
        rw [hbind]
        unfold Transport.deliver
        rw [hpc]
        dsimp only
        rw [hr, Option.map_some, hs]
      exact .moves (Or.inl hstep)
  | done origin result => exact .ended hpc

/-- **Every run of the shared openings.** -/
theorem opening_shared (events : List (Event H)) (t : Transport H)
    (hrun : run step (Transport.empty H) events = some t) :
    (∀ (i j : Nat) (a b : Job H), t.jobs[i]? = some a → t.jobs[j]? = some b → a.hash = b.hash →
      a.settled = false → b.settled = false → i = j) ∧
    (∀ c t', step t (.abort c) = some t' →
      ∃ a callers, t.callers[c]? = some a ∧ t' = { t with callers } ∧
        (∀ d, d ≠ c → callers[d]? = t.callers[d]?) ∧
        (a.pc.result = none → ∀ later t'', run step t' later = some t'' →
          Settles t''.callers c (.error .own))) ∧
    (∀ (j : Nat) (b : Job H), t.jobs[j]? = some b → b.aborted = true →
      ∀ a ∈ t.callers, a.pc.joined = some j → a.aborted = true) ∧
    (∀ a ∈ t.callers, ∀ origin result, a.pc = .done origin result →
      (result = .error .own → a.aborted = true) ∧ result ≠ .error .abandoned ∧
        (a.aborted = false → Given t result origin)) ∧
    (∀ (c : Nat) (a : Caller H) (j : Nat) (b : Job H), t.callers[c]? = some a → a.pc = .behind j → t.jobs[j]? = some b → b.settled = true →
      ∃ t' a', step t (.resume c) = some t' ∧ t'.callers[c]? = some a' ∧ Found t t' j a.hash a'.pc) ∧
    (∀ (c : Nat) (a : Caller H), t.callers[c]? = some a → Pending t c a) ∧
    (∀ (i k : Nat) (r q : Recovery H), t.recoveries[i]? = some r → t.recoveries[k]? = some q → r.hash = q.hash →
      (∀ result, r.stage ≠ .settled result) → (∀ result, q.stage ≠ .settled result) → i = k) := by
  have h := inv_run hrun
  refine ⟨fun i j a b ha hb hhash hsa hsb => ?_, fun c t' hstep => ?_,
    fun j b hj hb => ((h.jobs j b hj).empty hb).2, fun a ha origin result => h.given ha,
    fun c a j b ha hpc hj => h.resumes ha hpc hj, fun c a => h.pending, fun i k r q hr hq hhash hsr hsq => ?_⟩
  · have hi := (h.jobs i a ha).listed hsa
    rw [hhash, (h.jobs j b hb).listed hsb] at hi
    exact (Option.some.inj hi).symm
  · obtain ⟨a, callers, ha, rfl, hothers, hrejected⟩ := cancel_alone hstep
    exact ⟨a, callers, ha, rfl, hothers, fun hopen later t'' hlater =>
      settles_run hlater (hrejected hopen)⟩
  · have hi := (h.recoveries i r hr).current hsr
    rw [hhash, (h.recoveries k q hq).current hsq] at hi
    exact (Option.some.inj hi).symm

/-- The first caller is cancelled before its job has begun; the second finds the abandoned job. -/
def demoEvents : List (Event Nat) :=
  [.open 7 true (some false), .abort 0, .leave 0, .open 7 true none, .job 0 .begin, .settle 0, .resume 1,
    .job 1 .begin, .job 1 (.verified (.ok ())), .job 1 (.initialized (.ok ())), .job 1 .ready, .settle 1,
    .deliver 1, .leave 1]

/-- The first caller is cancelled; the second gets a job of its own, and its result. -/
theorem demo_opening_shared : ∃ t, run step (Transport.empty Nat) demoEvents = some t ∧
    t.callers.map Caller.pc = [.done (.job 0) (.error .own), .done (.job 1) (.ok ())] ∧
    ∀ (c : Nat) (a : Caller Nat), t.callers[c]? = some a → Pending t c a := by
  have hrun : (run step (Transport.empty Nat) demoEvents).map (fun t => t.callers.map Caller.pc) =
      some [.done (.job 0) (.error .own), .done (.job 1) (.ok ())] := by decide +kernel
  obtain ⟨t, ht, hpcs⟩ := Option.map_eq_some_iff.mp hrun
  exact ⟨t, ht, hpcs, (opening_shared demoEvents t ht).2.2.2.2.2.1⟩

end Runs

end My98.Web.TorrentOpening
