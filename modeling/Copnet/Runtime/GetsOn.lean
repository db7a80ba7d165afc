import Copnet.Runtime.CoSleep
import Copnet.Runtime.MutexProgress
import Copnet.Runtime.NoOrphan
import Copnet.Runtime.WaitEvent

/-!
# What a coroutine can wait for forever

A coroutine that is not switched into any more is suspended, since coroutines give the thread back,
what is queued is popped and what has returned is deleted. What it is suspended for has then not
come, and there are only four such things: a report of its descriptor, its deadline, a lock that
somebody holds at every moment, and nothing at all, after a `waitEvent` that could not register the
descriptor.
-/

open Transition Ledger

namespace Copnet

/-! ## Suspended coroutines -/

section Steps

variable {s s' : Sys} {act : Action} {es : List Event} {a : Addr} {c : Coroutine} {src : Source}
  {ℓ ℓ' : Life} {L L' : Addr → Life}

/-- The coroutine is suspended and will be woken from the source. -/
def Sys.IsParked (s : Sys) (a : Addr) (c : Coroutine) (src : Source) : Prop :=
  ∃ L, Lives s L ∧ L a = .parked c src

/-- A suspended coroutine stays so, with its source, unless it is handed over or reported, until
the loop switches into it. -/
theorem Sys.IsParked.next (h : s.IsParked a c src) (hdisc : Disciplined s act)
    (hs : Step s act s' es) :
    s'.IsParked a c src ∨ .switchTo c.pMyProcessor a ∈ es ∨
      (∃ m, src = .waiting m) ∧ s'.IsParked a c .queue ∨
        ∃ fd, src = .event fd false ∧ s'.IsParked a c (.event fd true) := by
  obtain ⟨L, hL, hℓ⟩ := h
  obtain ⟨L', hL', hlife⟩ := hs.lives hdisc hL
  have hstep := hlife a
  have hmem := switchTo_mem_iff a es
  rw [hℓ] at hstep
  generalize lifeEvents a es = evs at hstep hmem
  generalize hℓ' : L' a = ℓ' at hstep
  cases hstep with
  | stay => exact .inl ⟨L', hL', hℓ'⟩
  | handOver c m => exact .inr (.inr (.inl ⟨⟨m, rfl⟩, L', hL', hℓ'⟩))
  | collect c fd => exact .inr (.inr (.inr ⟨fd, rfl, L', hL', hℓ'⟩))
  | pop c que => exact .inr (.inl ((hmem _).mpr (by simp)))
  | resume c src hsrc => exact .inr (.inl ((hmem _).mpr (List.mem_singleton_self _)))

theorem Step.object (hs : Step s act s' es) (hdisc : Disciplined s act) (hL : Lives s L)
    (hco : s.cos a = some c) : .delete c.pMyProcessor a c.serial ∈ es ∨
      ∃ c', s'.cos a = some c' ∧ c'.pMyProcessor = c.pMyProcessor ∧ c'.serial = c.serial := by
  obtain ⟨L', hL', hlife⟩ := hs.lives hdisc hL
  have hstep := hlife a
  rw [(hL.fits a).co] at hco
  rw [(hL'.fits a).co]
  have hsub : lifeEvents a es ⊆ es := List.filter_sublist.subset
  generalize lifeEvents a es = evs at hstep hsub
  generalize L a = ℓ at hstep hco
  generalize L' a = ℓ' at hstep
  cases hstep with
  | delete c' =>
    obtain rfl := Option.some.inj hco
    exact .inl (hsub (List.mem_singleton_self _))
  | make => cases hco
  | stay => exact .inr ⟨c, hco, rfl, rfl⟩
  | _ =>
    obtain rfl := Option.some.inj hco
    exact .inr ⟨_, rfl, rfl, rfl⟩

theorem Sys.IsParked.sleeps (h : s.IsParked a c .sleep) :
    ∃ deadline, s.Sleeps c.pMyProcessor a deadline := by
  obtain ⟨L, hL, hℓ⟩ := h
  have hsleeps : (L a).Sleeps c.pMyProcessor := ⟨c, rfl, .inr hℓ⟩
  by_cases hmem : a ∈ (s.pros c.pMyProcessor).timer.heap.sleepers
  · obtain ⟨⟨deadline, b⟩, hentry, rfl⟩ := List.mem_map.mp hmem
    exact ⟨deadline, L, hL, hsleeps, .inl hentry⟩
  · exact ⟨_, L, hL, hsleeps, .inr ⟨hmem, le_rfl⟩⟩

theorem Sys.IsParked.awaitsFd {fd : Fd} {collected : Bool}
    (h : s.IsParked a c (.event fd collected)) : s.AwaitsFd c.pMyProcessor a fd collected := by
  obtain ⟨L, hL, hℓ⟩ := h
  have hallow := (hL.fits a).ok
  rw [hℓ] at hallow
  refine ⟨L, hL, c, rfl, .inr ⟨?_, hℓ⟩⟩
  cases hk : c.ctx.2 <;> simp_all [Life.Ok, Point.Allows]

theorem Sys.IsParked.waits {m : MuId} (h : s.IsParked a c (.waiting m)) :
    s.WaitsFor m a ∧ a ∈ (s.mus m).waitingCo := by
  obtain ⟨L, hL, hℓ⟩ := h
  have hfit := hL.fits a
  rw [hℓ] at hfit
  have hmu : (s.mus m).waitingCo.count a = _ := hfit.places (.mu m)
  have hallow := hfit.ok.2.2
  refine ⟨⟨L, hL, ?_⟩, List.count_pos_iff.mp (by simp [hmu, Life.places, Source.places])⟩
  rw [hℓ]
  cases hk : c.ctx.2 <;> simp_all [Life.Waits, Point.Allows]

/-! ## Calls of `waitEvent` that fail -/

/-- A source is missing only from a `waitEvent` that fails to register. -/
theorem LifeStep.sourced_or (h : LifeStep s act a ℓ es ℓ') (hℓ : ℓ.Sourced) :
    ℓ'.Sourced ∨ AddEvFails s act ∧
      ∃ c fd, ℓ = .exec c (.run .user) .idle ∧ ℓ' = .exec c (.yield (.removeEv fd)) .idle := by
  cases h with
  | addEvFails c fd hfails => exact .inr ⟨hfails, c, fd, rfl, rfl⟩
  | _ =>
    -- what else a step can do to a life it can do in an action that registers nothing
    exact .inl (LifeStep.sourced (s := s) (a := a) (by constructor <;> assumption)
      (show ¬AddEvFails s (.tick 0) from id) hℓ)

/-- Without a source a coroutine is suspended and stays so. -/
theorem LifeStep.of_not_sourced (h : LifeStep s act a ℓ es ℓ') (hℓ : ¬ℓ.Sourced) :
    es = [] ∧ ¬ℓ'.Sourced ∧ ℓ'.co.map Coroutine.pMyProcessor = ℓ.co.map Coroutine.pMyProcessor := by
  cases h with
  | stay => exact ⟨rfl, hℓ, rfl⟩
  | _ => simp_all [Life.Sourced, Code.goesOnAt, Life.co]

theorem Step.of_fails {p : Pid} (hs : Step s act s' es) (hfails : AddEvFails s act)
    (hp : act.thread = some p) (hexec : (s.pros p).exec = some (a, .run .user)) (hL : Lives s L)
    (hL' : Lives s' L') : es = [] ∧ ¬(L' a).Sourced := by
  cases hs with
  | @waitEvent q x fd canPoll hexec' =>
    obtain rfl : q = p := Option.some.inj hp
    obtain rfl : a = x := by simpa using hexec.symm.trans hexec'
    obtain ⟨c, src, hℓ, -, -, -, -, rfl⟩ := hL.executing hexec
    obtain ⟨c', src', hℓ', hc', -, -, -, hallows⟩ :=
      hL'.executing (show ((Sys.setPro _ q _).pros q).exec = some (a, .yield (.removeEv fd)) by
        rw [Sys.pros_setPro_self])
    suffices hidle : src' = .idle by simp [hℓ', hidle, Life.Sourced, Code.goesOnAt]
    refine hallows.resolve_left ?_
    rintro rfl
    -- it would be registered, and was not before
    have hreg : _ ↔ .pro q (.reg fd) ∈ (L' a).places := (hL'.fits a).registered
    rw [Sys.pros_setPro_self, Processor.addEv_fails hfails, (hL.fits a).registered, hℓ, hℓ'] at hreg
    simp [Life.places, Source.places, hc'] at hreg
  | _ => exact absurd hfails id

end Steps

/-! ## In the long run -/

section Forever

variable {x : Execution machine Disciplined} {p : Pid} {a : Addr} {c : Coroutine} {n i : ℕ}

/-- In step `i` the coroutine at `a`, which executes on `p`, calls `waitEvent` for a descriptor that
cannot be registered. -/
def FailsToRegister (x : Execution machine Disciplined) (p : Pid) (a : Addr) (i : ℕ) : Prop :=
  ((x.state i).pros p).exec = some (a, .run .user) ∧ (x.action i).thread = some p ∧
    AddEvFails (x.state i) (x.action i)

/-- From step `k` on the coroutine is registered for a descriptor that is not reported. -/
def AwaitsReport (x : Execution machine Disciplined) (p : Pid) (a : Addr) (k : ℕ) : Prop :=
  ∃ fd, ∀ j, k ≤ j → ((x.state j).pros p).epoller.registered fd = some (some a) ∧
    ∀ fds, x.action j = .epoll p fds → fd ∉ fds

/-- From step `k` on the coroutine is in the heap of its timer, and its deadline does not come. -/
def AwaitsDeadline (x : Execution machine Disciplined) (p : Pid) (a : Addr) (k : ℕ) : Prop :=
  ∃ deadline, ∀ j, k ≤ j → (deadline, a) ∈ ((x.state j).pros p).timer.heap.entries ∧
    Time.now (x.state j).clock < deadline

/-- From step `k` on the coroutine is among the waiters of a lock that somebody holds. -/
def AwaitsLock (x : Execution machine Disciplined) (a : Addr) (k : ℕ) : Prop :=
  ∃ m, ∀ j, k ≤ j → a ∈ ((x.state j).mus m).waitingCo ∧
    ((x.state j).readers m ≠ [] ∨ (x.state j).writers m ≠ [])

/-- A coroutine without a source has called `waitEvent` in vain. -/
theorem exists_failsToRegister (hinit : machine.init (x.state 0)) (k : ℕ) :
    ∃ L, Lives (x.state k) L ∧ ∀ a, ¬(L a).Sourced → ∃ i q,
      (L a).co.map Coroutine.pMyProcessor = some q ∧ FailsToRegister x q a i := by
  induction k with
  | zero => exact ⟨_, lives_of_init hinit, fun a hno ↦ absurd trivial hno⟩
  | succ k ih =>
    obtain ⟨L, hL, hfailed⟩ := ih
    obtain ⟨L', hL', hlife⟩ := (step_at x k).lives (x.guarded k) hL
    refine ⟨L', hL', fun a hno ↦ ?_⟩
    by_cases hsrc : (L a).Sourced
    · -- this is the call
      obtain ⟨hfails, c, fd, hℓ, hℓ'⟩ := ((hlife a).sourced_or hsrc).resolve_left hno
      have hfit := hL.fits a
      have hfit' := hL'.fits a
      rw [hℓ] at hfit
      rw [hℓ'] at hfit' ⊢
      refine ⟨k, c.pMyProcessor, rfl, hfit.exec_eq, ?_, hfails⟩
      by_contra hother
      have hsame := (step_at x k).exec_of_ne hother
      rw [hfit.exec_eq, hfit'.exec_eq] at hsame
      cases hsame
    · obtain ⟨-, -, howner⟩ := (hlife a).of_not_sourced hsrc
      obtain ⟨i, q, hq, hfails⟩ := hfailed a hsrc
      exact ⟨i, q, howner.trans hq, hfails⟩

/-- Nothing resumes a coroutine whose `waitEvent` has failed. -/
theorem FailsToRegister.never (h : FailsToRegister x p a i) (hinit : machine.init (x.state 0))
    {j : ℕ} (hj : i ≤ j) (q : Pid) : .switchTo q a ∉ x.out j := by
  obtain ⟨hexec, hthread, hfails⟩ := h
  obtain ⟨L, hL⟩ := lives_of_reachable (fun _ _ h ↦ h) ⟨_, _, hinit, x.run i⟩
  obtain ⟨L₁, hL₁, -⟩ := (step_at x i).lives (x.guarded i) hL
  obtain ⟨hnil, hno⟩ := (step_at x i).of_fails hfails hthread hexec hL hL₁
  have hlost : ∀ k, i + 1 ≤ k → ∃ L, Lives (x.state k) L ∧ ¬(L a).Sourced := by
    intro k hk
    induction k, hk using Nat.le_induction with
    | base => exact ⟨L₁, hL₁, hno⟩
    | succ k hk ih =>
      obtain ⟨L, hL, hno⟩ := ih
      obtain ⟨L', hL', hlife⟩ := (step_at x k).lives (x.guarded k) hL
      exact ⟨L', hL', ((hlife a).of_not_sourced hno).2.1⟩
  rcases hj.eq_or_lt with rfl | hlt
  · simp [hnil]
  · obtain ⟨L, hL, hno⟩ := hlost j hlt
    obtain ⟨L', -, hlife⟩ := (step_at x j).lives (x.guarded j) hL
    rw [switchTo_mem_iff, ((hlife a).of_not_sourced hno).1]
    exact List.not_mem_nil

theorem object_stays (hinit : machine.init (x.state 0)) (hco : (x.state n).cos a = some c)
    (hno : ∀ k, n ≤ k → .delete c.pMyProcessor a c.serial ∉ x.out k) {k : ℕ} (hk : n ≤ k) :
    ∃ c', (x.state k).cos a = some c' ∧ c'.pMyProcessor = c.pMyProcessor ∧
      c'.serial = c.serial := by
  induction k, hk using Nat.le_induction with
  | base => exact ⟨c, hco, rfl, rfl⟩
  | succ k hk ih =>
    obtain ⟨c', hco', hp, hserial⟩ := ih
    obtain ⟨L, hL⟩ := lives_of_reachable (fun _ _ h ↦ h) ⟨_, _, hinit, x.run k⟩
    rcases (step_at x k).object (x.guarded k) hL hco' with hdelete | ⟨c'', hco'', hp', hserial'⟩
    · rw [hp, hserial] at hdelete
      exact absurd hdelete (hno k hk)
    · exact ⟨c'', hco'', hp'.trans hp, hserial'.trans hserial⟩

theorem Lives.eventually {L : Addr → Life} (hinit : machine.init (x.state 0))
    (hx : GoesOn x p) (hL : Lives (x.state n) L) (hqueue : .pro p .queue ∈ (L a).places) :
    ∃ k, n ≤ k ∧ .switchTo p a ∈ x.out k :=
  queued_eventually_switched hinit hx ((hL.fits a).mem_queued hqueue)

theorem Sys.IsParked.stays {src : Source} (hinit : machine.init (x.state 0))
    (hx : GoesOn x c.pMyProcessor) (h : (x.state n).IsParked a c src)
    (hno : ∀ k, n ≤ k → .switchTo c.pMyProcessor a ∉ x.out k) :
    ∀ k, n ≤ k → (x.state k).IsParked a c src := by
  intro k hk
  induction k, hk using Nat.le_induction with
  | base => exact h
  | succ k hk ih =>
    rcases ih.next (x.guarded k) (step_at x k) with hstays | hswitch | ⟨-, hqueue⟩ | ⟨fd, -, hrep⟩
    · exact hstays
    · exact absurd hswitch (hno k hk)
    · -- handed over, it would be popped
      obtain ⟨L, hL, hℓ⟩ := hqueue
      obtain ⟨j, hj, hswitch⟩ := hL.eventually hinit hx (a := a)
        (by simp [hℓ, Life.places, Source.places])
      exact absurd hswitch (hno j (by omega))
    · obtain ⟨j, hj, hswitch⟩ := hrep.awaitsFd.eventually hinit hx
      exact absurd hswitch (hno j (by omega))

theorem Sys.IsParked.awaitsReport {fd : Fd} {collected : Bool} (hinit : machine.init (x.state 0))
    (hx : GoesOn x c.pMyProcessor) (h : (x.state n).IsParked a c (.event fd collected))
    (hno : ∀ k, n ≤ k → .switchTo c.pMyProcessor a ∉ x.out k) :
    AwaitsReport x c.pMyProcessor a n := by
  have hstays := h.stays hinit hx hno
  refine ⟨fd, fun j hj ↦ ⟨?_, fun fds hact hfd ↦ ?_⟩⟩
  · obtain ⟨L, hL, hℓ⟩ := hstays j hj
    refine (hL.fits a).registered.mpr ?_
    cases collected <;> simp [hℓ, Life.places, Source.places]
  · have hrep := (hstays j hj).awaitsFd.report (hact ▸ step_at x j) hfd
    obtain ⟨k, hk, hswitch⟩ := hrep.eventually hinit hx
    exact hno k (by omega) hswitch

theorem Sys.IsParked.awaitsDeadline (hinit : machine.init (x.state 0))
    (hx : GoesOn x c.pMyProcessor) (h : (x.state n).IsParked a c .sleep)
    (hno : ∀ k, n ≤ k → .switchTo c.pMyProcessor a ∉ x.out k) :
    AwaitsDeadline x c.pMyProcessor a n := by
  obtain ⟨deadline, hsleeps⟩ := h.sleeps
  refine ⟨deadline, fun j hj ↦ ?_⟩
  have hlate : Time.now (x.state j).clock < deadline := by
    by_contra hdue
    obtain ⟨k, hk, hswitch⟩ := hsleeps.eventually hinit hx (not_lt.mp hdue)
    exact hno k hk hswitch
  obtain ⟨i, rfl⟩ := Nat.exists_eq_add_of_le hj
  rcases hsleeps.run (x.run_between n i) with hmem | ⟨-, -, -, -, hwaits⟩
  · obtain ⟨k, -, hk⟩ := x.mem_events_between.mp hmem
    exact absurd hk (hno (n + k) (Nat.le_add_right n k))
  · exact ⟨hwaits.resolve_right fun hdue ↦ absurd hdue.2 (not_le.mpr hlate), hlate⟩

theorem Sys.IsParked.awaitsLock {m : MuId} (hinit : machine.init (x.state 0))
    (hgoes : ∀ k b c, (x.state k).cos b = some c → GoesOn x c.pMyProcessor)
    (hx : GoesOn x c.pMyProcessor) (h : (x.state n).IsParked a c (.waiting m))
    (hno : ∀ k, n ≤ k → .switchTo c.pMyProcessor a ∉ x.out k) : AwaitsLock x a n := by
  have hstays := h.stays hinit hx hno
  have hmem : ∀ j, n ≤ j → a ∈ ((x.state j).mus m).waitingCo := fun j hj ↦ (hstays j hj).waits.2
  refine ⟨m, fun j hj ↦ ⟨hmem j hj, ?_⟩⟩
  obtain ⟨⟨L, hL, hwaits⟩, -⟩ := (hstays j hj).waits
  obtain ⟨c, hawaits⟩ := hL.awaits (lockInv_of_reachable ⟨_, _, hinit, x.run j⟩ m) hwaits
  exact hawaits.held (hmem j hj) (unlocked_of_waiting hinit hgoes hmem hj)

/-- **Every coroutine gets on.** In every disciplined run that goes on forever, in which the threads
outside the scheduler finish their calls, and in which on processors with coroutines these give the
thread back and the loop goes on when they have: every coroutine that is there is switched into or
deleted later on, unless from some step on it waits for a descriptor that is not reported any more,
for a deadline that the clock does not come to, or for a lock that somebody holds at every step; or
it has called `waitEvent` for a descriptor that could not be registered. -/
theorem coroutine_gets_on (hinit : machine.init (x.state 0))
    (hgoes : ∀ k b c, (x.state k).cos b = some c → GoesOn x c.pMyProcessor)
    (hext : ∀ k t, (x.state k).exts t ≠ .idle → ∃ j, k ≤ j ∧ x.action j = .ext t)
    (hco : (x.state n).cos a = some c) :
    (∃ k, n ≤ k ∧ (.switchTo c.pMyProcessor a ∈ x.out k ∨
        .delete c.pMyProcessor a c.serial ∈ x.out k)) ∨
      (∃ k, n ≤ k ∧ (AwaitsReport x c.pMyProcessor a k ∨ AwaitsDeadline x c.pMyProcessor a k ∨
        AwaitsLock x a k)) ∨
      ∃ i, FailsToRegister x c.pMyProcessor a i ∧
        ∀ j, i ≤ j → ∀ q, .switchTo q a ∉ x.out j := by
  refine or_iff_not_imp_left.mpr fun hno ↦ ?_
  have hx := hgoes n a c hco
  have hswitch : ∀ k, n ≤ k → .switchTo c.pMyProcessor a ∉ x.out k :=
    fun k hk h ↦ hno ⟨k, hk, .inl h⟩
  have hdelete : ∀ k, n ≤ k → .delete c.pMyProcessor a c.serial ∉ x.out k :=
    fun k hk h ↦ hno ⟨k, hk, .inr h⟩
  -- its thread is given back, and it is still there
  obtain ⟨k, hk, hnone⟩ := hx.1 n
  obtain ⟨c', hco', hp, hserial⟩ := object_stays hinit hco hdelete hk
  rw [← hp] at hx hswitch hdelete hnone ⊢
  rw [← hserial] at hdelete
  have hswitch' : ∀ j, k ≤ j → .switchTo c'.pMyProcessor a ∉ x.out j :=
    fun j hj ↦ hswitch j (by omega)
  obtain ⟨L, hL, hfailed⟩ := exists_failsToRegister hinit k
  have hfit := hL.fits a
  have hlost := hfailed a
  rw [hfit.co] at hco'
  cases hℓ : L a with
  | free => simp [hℓ, Life.co] at hco'
  | built c₁ maker =>
    obtain rfl : c₁ = c' := by simpa [hℓ, Life.co] using hco'
    obtain ⟨j, hj, L', hL', hqueued⟩ := exists_isQueued hgoes hext ⟨L, hL, hℓ⟩
    obtain ⟨i, hi, hmem⟩ := hL'.eventually hinit hx (a := a) (by simp [hqueued, Life.places])
    exact absurd hmem (hswitch' i (by omega))
  | queued c₁ =>
    obtain rfl : c₁ = c' := by simpa [hℓ, Life.co] using hco'
    obtain ⟨i, hi, hmem⟩ := hL.eventually hinit hx (a := a) (by simp [hℓ, Life.places])
    exact absurd hmem (hswitch' i hi)
  | exec c₁ code src =>
    obtain rfl : c₁ = c' := by simpa [hℓ, Life.co] using hco'
    rw [hℓ] at hfit
    simp [hfit.exec_eq] at hnone
  | returned c₁ =>
    obtain rfl : c₁ = c' := by simpa [hℓ, Life.co] using hco'
    obtain ⟨i, hi, hdel, -⟩ :=
      Sys.HasReturned.eventually hinit hx (n := k) (a := a) ⟨L, hL, hℓ⟩
    exact absurd hdel (hdelete i (by omega))
  | parked c₁ src =>
    obtain rfl : c₁ = c' := by simpa [hℓ, Life.co] using hco'
    have hparked : (x.state k).IsParked a c₁ src := ⟨L, hL, hℓ⟩
    cases src with
    | idle =>
      obtain ⟨i, q, hq, hfails⟩ := hlost (by simp [hℓ, Life.Sourced])
      obtain rfl : c₁.pMyProcessor = q := by simpa [hℓ, Life.co] using hq
      exact .inr ⟨i, hfails, fun j hj ↦ hfails.never hinit hj⟩
    | queue =>
      obtain ⟨i, hi, hmem⟩ := hL.eventually hinit hx (a := a)
        (by simp [hℓ, Life.places, Source.places])
      exact absurd hmem (hswitch' i hi)
    | sleep => exact .inl ⟨k, hk, .inr (.inl (hparked.awaitsDeadline hinit hx hswitch'))⟩
    | event fd collected => exact .inl ⟨k, hk, .inl (hparked.awaitsReport hinit hx hswitch')⟩
    | waiting m =>
      exact .inl ⟨k, hk, .inr (.inr (hparked.awaitsLock hinit hgoes hx hswitch'))⟩

end Forever

theorem coroutine_gets_on_new : ∃ x : Execution machine Disciplined, ∃ n c,
    (x.state n).cos 7 = some c ∧ c.serial = 0 ∧
      ((∃ k, n ≤ k ∧ (.switchTo c.pMyProcessor 7 ∈ x.out k ∨
          .delete c.pMyProcessor 7 c.serial ∈ x.out k)) ∨
        (∃ k, n ≤ k ∧ (AwaitsReport x c.pMyProcessor 7 k ∨ AwaitsDeadline x c.pMyProcessor 7 k ∨
          AwaitsLock x 7 k)) ∨
        ∃ i, FailsToRegister x c.pMyProcessor 7 i ∧
          ∀ j, i ≤ j → ∀ q, .switchTo q 7 ∉ x.out j) := by
  obtain ⟨x, hinit, hgoes, hext, -, hmade, -⟩ := exists_made_and_gone
  obtain ⟨L, hL⟩ := lives_of_reachable (fun _ _ h ↦ h) ⟨_, _, hinit, x.run 1⟩
  obtain ⟨c, maker, ⟨L', hL', hℓ⟩, hserial, -⟩ := (step_at x 1).isBuilt (x.guarded 1) hL hmade
  have hco : (x.state 2).cos 7 = some c := by rw [(hL'.fits 7).co, hℓ, Life.co]
  exact ⟨x, 2, c, hco, hserial, coroutine_gets_on hinit hgoes hext hco⟩

end Copnet
