import Copnet.Runtime.Starvation
import Copnet.Timer.Firing

/-!
# Sleeping

`co_sleep(t)` goes through `Processor::wait` and `Timer::runAfter` into the heap of the timer, from
there through `getExpiredCoroutines` into `timerExpiredCo_`, and through `Processor::resume` back
into the code that called it. In between the loop goes through any number of iterations, and other
threads push, wake up and hand over as they like.

A sleeper is in the heap with its deadline, or it has been taken out, which is done only to what is
due. `Timer.Waits` says so; it is kept by every step, and as long as the sleeper is in one of the
two places nothing switches into it but the loop over `timerExpiredCo_`. So nobody is woken early,
by more than what the clock leaves out. And once the deadline has come, the next iteration takes the
sleeper out of the heap and resumes it.
-/

open Transition Ledger

namespace Copnet

/-! ## A sleeper in the timer -/

/-- The sleeper is in the heap with its deadline, or has been taken out and the deadline has come
at the instant `clock`. -/
def Timer.Waits (t : Timer) (clock deadline : ℤ) (a : Addr) : Prop :=
  (deadline, a) ∈ t.heap.entries ∨ a ∉ t.heap.sleepers ∧ deadline ≤ Time.now clock

namespace Timer.Waits

variable {t t' : Timer} {clock clock' deadline : ℤ} {a : Addr}

theorem mono (h : t.Waits clock deadline a) (hle : clock ≤ clock') :
    t.Waits clock' deadline a :=
  h.imp_right fun ⟨hno, hdue⟩ ↦ ⟨hno, hdue.trans (Time.now_mono hle)⟩

theorem of_heap (h : t.Waits clock deadline a) (heq : t'.heap = t.heap) :
    t'.Waits clock deadline a := by
  unfold Waits at h ⊢
  rwa [heq]

theorem push (h : t.Waits clock deadline a) (time : ℤ) {b : Addr} (hb : a ≠ b) :
    (t.push time b).Waits clock deadline a := by
  refine h.imp (fun hmem ↦ TimerHeap.mem_push.mpr (.inr hmem)) fun ⟨hno, hdue⟩ ↦ ⟨?_, hdue⟩
  rw [Timer.heap_push, TimerHeap.perm_push.mem_iff, List.mem_cons, not_or]
  exact ⟨hb, hno⟩

theorem not_mem_popExpired (hone : t.heap.sleepers.count a ≤ 1)
    (hmem : (deadline, a) ∈ t.heap.entries)
    (hdue : deadline ≤ Time.now clock) : a ∉ (t.popExpired clock).heap.sleepers := by
  have hsplit := congrArg (List.count a) (t.heap.expired_append (Time.now clock))
  have hexpired : a ∈ (t.heap.expired (Time.now clock)).map Prod.snd :=
    List.mem_map.mpr ⟨_, TimerHeap.mem_expired.mpr ⟨hmem, hdue⟩, rfl⟩
  have hpos := List.count_pos_iff.mpr hexpired
  rw [List.count_append] at hsplit
  exact List.count_eq_zero.mp (by rw [Timer.heap_popExpired]; omega)

/-- The pop loop takes the sleeper out exactly if it is due. -/
theorem popExpired (h : t.Waits clock deadline a) (hone : t.heap.sleepers.count a ≤ 1) :
    (t.popExpired clock).Waits clock deadline a := by
  rcases h with hmem | ⟨hno, hdue⟩
  · by_cases hdue : deadline ≤ Time.now clock
    · exact .inr ⟨not_mem_popExpired hone hmem hdue, hdue⟩
    · left
      have hsplit : t.heap.expired (Time.now clock) ++
          (t.heap.popExpired (Time.now clock)).entries = t.heap.entries :=
        List.takeWhile_append_dropWhile
      rw [← hsplit, List.mem_append, TimerHeap.mem_expired] at hmem
      exact hmem.resolve_left fun h ↦ hdue h.2
  · refine .inr ⟨fun hmem ↦ hno ?_, hdue⟩
    rw [← t.heap.expired_append (Time.now clock)]
    exact List.mem_append_right _ hmem

theorem not_mem_of_due (h : t.Waits clock deadline a) (hone : t.heap.sleepers.count a ≤ 1)
    (hdue : deadline ≤ Time.now clock) : a ∉ (t.popExpired clock).heap.sleepers := by
  rcases h with hmem | ⟨hno, -⟩
  · exact not_mem_popExpired hone hmem hdue
  · intro hmem
    rw [← t.heap.expired_append (Time.now clock)] at hno
    exact hno (List.mem_append_right _ hmem)

end Timer.Waits

/-! ## What a step does to it -/

/-- The loop has not come to `getExpiredCoroutines` in this iteration. -/
def LoopPc.Early : LoopPc → Prop
  | .start | .top | .epollWait | .getExpired => True
  | _ => False

/-- How often the coroutine at `a` is in the timer or still to be resumed from its list. -/
def LoopState.asleep (L : LoopState) (a : Addr) : ℕ :=
  L.timer.heap.sleepers.count a +
    match L.pc with
    | .getExpired | .readTimefd | .rearm => L.timerExpiredCo.count a
    | .timers i => (L.timerExpiredCo.drop i).count a
    | _ => 0

theorem Processor.ledger_sleep (P : Processor) (a : Addr) :
    P.ledger .sleep a = P.loopState.asleep a := by
  simp only [ledger, LoopState.asleep, expiredRest, loopState]
  cases P.pc <;> rfl

/-- The sleeper is in the timer of the loop, once. -/
structure LoopState.Waits (L : LoopState) (clock deadline : ℤ) (a : Addr) : Prop where
  timer : L.timer.Waits clock deadline a
  once : L.asleep a = 1

theorem LoopState.Waits.count_le {L : LoopState} {clock deadline : ℤ} {a : Addr}
    (h : L.Waits clock deadline a) : L.timer.heap.sleepers.count a ≤ 1 := by
  have := h.once
  rw [LoopState.asleep] at this
  omega

section Effects

variable {clock : ℤ} {call : ℕ} {q : Pid} {P : Processor} {act : Action} {L : LoopState}
  {es : List Event} {a : Addr} {deadline : ℤ}

theorem LoopState.Waits.ne_of_push {time : ℤ} {b : Addr} (hw : L.Waits clock deadline a)
    (hone : LoopState.asleep { L with timer := L.timer.push time b } a = 1) : a ≠ b := by
  rintro rfl
  have hcount := (TimerHeap.perm_push (h := L.timer.heap) (e := (time, a))).count_eq a
  have := hw.once
  rw [List.count_cons_self] at hcount
  simp only [LoopState.asleep, Timer.heap_push] at hone this
  omega

/-- A step keeps a sleeper in its heap or takes it out if it is due. -/
theorem Effect.waits (h : Effect clock call q P act L es) (hw : P.loopState.Waits clock deadline a)
    (hone : L.asleep a = 1) : L.Waits clock deadline a := by
  refine ⟨?_, hone⟩
  cases h with
  | runAfter _ => exact hw.timer.push _ (hw.ne_of_push hone)
  | getExpired _ _ => exact hw.timer.popExpired hw.count_le
  | arm _ => exact hw.timer.of_heap (Timer.heap_rearmFor ..)
  | expire hexp => exact hw.timer.of_heap (Timer.expire_eq_some _ hexp).1
  | rearm _ _ => exact hw.timer.of_heap (Timer.heap_rearm ..)
  | _ => exact hw.timer.of_heap rfl

/-- Once the deadline has come, a sleeper is in the heap only as far as `getExpiredCoroutines`. -/
theorem Effect.early (h : Effect clock call q P act L es) (hw : P.loopState.Waits clock deadline a)
    (hone : L.asleep a = 1) (hdue : deadline ≤ Time.now clock)
    (he : P.pc.Early ∨ a ∉ P.timer.heap.sleepers) : L.pc.Early ∨ a ∉ L.timer.heap.sleepers := by
  cases h with
  | runAfter _ =>
    refine he.imp_right fun hno ↦ ?_
    rw [Timer.heap_push, TimerHeap.perm_push.mem_iff, List.mem_cons, not_or]
    exact ⟨hw.ne_of_push hone, hno⟩
  | getExpired _ _ => exact .inr (hw.timer.not_mem_of_due hw.count_le hdue)
  | stay _ | push _ _ | wakeUp _ => exact he
  | arm _ => rwa [Timer.heap_rearmFor]
  | expire hexp => rwa [(Timer.expire_eq_some _ hexp).1]
  | start _ _ | top _ _ | epoll _ _ _ | reclaimEnd _ _ _ => exact .inl trivial
  | rearm _ hpc =>
    rw [Timer.heap_rearm]
    exact .inr (he.resolve_left (by simp [hpc, LoopPc.Early]))
  | readTimefd _ hpc | timer _ hpc _ _ | timersEnd _ hpc _ | readQue _ hpc | drain _ hpc _
  | drainEnd _ hpc _ | pop _ hpc _ _ | flip _ hpc | event _ hpc _ _ | eventsEnd _ hpc _
  | reclaim _ hpc _ => exact .inr (he.resolve_left (by simp [hpc, LoopPc.Early]))

theorem Effect.asleep_of_top (h : Effect clock call q P act L es) (htop : .top q ∈ es)
    (he : P.pc.Early ∨ a ∉ P.timer.heap.sleepers) : P.loopState.asleep a = 0 := by
  cases h with
  | reclaimEnd _ hpc _ =>
    have hno := he.resolve_left (by simp [hpc, LoopPc.Early])
    simpa [LoopState.asleep, Processor.loopState, hpc, List.count_eq_zero] using hno
  | timer _ _ _ hes | event _ _ _ hes | pop _ _ _ hes =>
    rcases hes with rfl | ⟨b, -, rfl⟩ <;> simp at htop
  | _ => simp at htop

theorem Effect.timer_of_switch (h : Effect clock call q P act L es) (hswitch : .switchTo q a ∈ es) :
    L.timer = P.timer := by
  cases h <;> first | rfl | simp at hswitch

end Effects

/-! ## Sleepers of the system -/

/-- The coroutine has entered the timer of `p`, and has not been resumed. -/
def Life.Sleeps (p : Pid) (ℓ : Life) : Prop :=
  ∃ c, c.pMyProcessor = p ∧ ((∃ code, ℓ = .exec c code .sleep) ∨ ℓ = .parked c .sleep)

/-- The coroutine at `a` sleeps on `p` until the deadline. -/
def Sys.Sleeps (s : Sys) (p : Pid) (a : Addr) (deadline : ℤ) : Prop :=
  ∃ L, Lives s L ∧ (L a).Sleeps p ∧ (s.pros p).timer.Waits s.clock deadline a

section Steps

variable {s s' : Sys} {act : Action} {es : List Event} {p : Pid} {a : Addr} {deadline : ℤ}

theorem Fits.asleep_eq_one {ℓ : Life} (hf : Fits s a ℓ) (hℓ : ℓ.Sleeps p) :
    (s.pros p).loopState.asleep a = 1 := by
  rw [← Processor.ledger_sleep]
  refine (hf.places (.pro p .sleep)).trans ?_
  obtain ⟨c, rfl, ⟨code, rfl⟩ | rfl⟩ := hℓ <;> simp [Life.places, Source.places]

theorem LifeStep.sleeps {ℓ ℓ' : Life} (h : LifeStep s act a ℓ es ℓ') (hℓ : ℓ.Sleeps p) :
    es = [] ∧ ℓ'.Sleeps p ∨ es = [.switchTo p a] ∧ ∃ c, c.pMyProcessor = p ∧ ℓ = .parked c .sleep ∧
      ℓ' = .exec { c with status := .running } (.run c.ctx.2) .idle := by
  obtain ⟨c, hp, ⟨code, rfl⟩ | rfl⟩ := hℓ
  · cases h with
    | stay => exact .inl ⟨rfl, c, hp, .inl ⟨code, rfl⟩⟩
    | code _ _ code' _ hgoes =>
      exact .inl ⟨rfl, { c with status := code'.status }, hp, .inl ⟨code', rfl⟩⟩
    | park _ k => exact .inl ⟨rfl, { c with ctx := (a, k) }, hp, .inr rfl⟩
  · cases h with
    | stay => exact .inl ⟨rfl, c, hp, .inr rfl⟩
    | resume _ _ hsrc => exact .inr ⟨by rw [hp], c, hp, rfl, rfl⟩

theorem Step.clock_le (h : Step s act s' es) : s.clock ≤ s'.clock := by
  cases h with
  | tick => exact Int.le_add_of_nonneg_right (Int.natCast_nonneg _)
  | timer _ _ _ hres | pop _ _ _ hres | event _ _ _ hres => exact hres.frame.2.2.1.ge
  | _ => exact le_rfl

theorem Sys.Sleeps.start {time : ℤ} (h : Reachable machine Disciplined s)
    (hexec : (s.pros p).exec = some (a, .sleep time)) (hs : Step s (.co p) s' es) :
    s'.Sleeps p a (Timer.runTime s.clock time) := by
  obtain ⟨L, hL⟩ := lives_of_reachable (fun _ _ h ↦ h) h
  obtain ⟨L', hL', -⟩ := hs.lives trivial hL
  cases hs with
  | @runAfter _ x b time' hexec' hcur =>
    obtain ⟨rfl, rfl⟩ : a = x ∧ time = time' := by simpa using hexec.symm.trans hexec'
    obtain rfl : b = a := Option.some.inj (hcur.symm.trans (hL.current p a _ hexec))
    obtain ⟨c, src, hc, hp, -, -, -, hallows⟩ :=
      hL'.executing (show ((Sys.setPro _ p _).pros p).exec
        = some (b, .arm (Timer.runTime s.clock time)) by rw [Sys.pros_setPro_self])
    obtain rfl : src = .sleep := hallows
    exact ⟨L', hL', ⟨c, hp, .inl ⟨_, hc⟩⟩, .inl (by simp [TimerHeap.mem_push])⟩
  | _ => simp_all

/-- A step either lets a sleeper sleep on, or the loop of its processor resumes it, which then is
not early. -/
theorem Sys.Sleeps.next (h : s.Sleeps p a deadline) (hdisc : Disciplined s act)
    (hs : Step s act s' es) :
    (∀ q, .switchTo q a ∉ es) ∧ s'.Sleeps p a deadline ∨
      .switchTo p a ∈ es ∧ (∀ q, .switchTo q a ∈ es → q = p) ∧ deadline ≤ Time.now s.clock ∧
        (s'.pros p).exec = some (a, .run .user) := by
  obtain ⟨L, hL, hℓ, hw⟩ := h
  obtain ⟨L', hL', hlife⟩ := hs.lives hdisc hL
  have hmem := switchTo_mem_iff a es
  have hone := (hL.fits a).asleep_eq_one hℓ
  rcases (hlife a).sleeps hℓ with ⟨hnil, hℓ'⟩ | ⟨hes, c, hp, hc, hc'⟩
  · refine .inl ⟨fun q ↦ by simp [hmem, hnil], L', hL', hℓ', ?_⟩
    have hw' := (hs.effect p).waits ⟨hw, hone⟩ ((hL'.fits a).asleep_eq_one hℓ')
    exact hw'.timer.mono hs.clock_le
  · right
    have hswitch : .switchTo p a ∈ es := by simp [hmem, hes]
    have hfit := hL'.fits a
    have hok := (hL.fits a).ok
    rw [hc] at hok
    rw [hc', show c.ctx.2 = .user by
      cases hk : c.ctx.2 <;> simp_all [Life.Ok, Point.Allows]] at hfit
    refine ⟨hswitch, fun q hq ↦ by simpa [hmem, hes] using hq, ?_, hp ▸ hfit.exec_eq⟩
    -- now it is in no place of the timer, and the timer has not changed
    have htimer : (s'.pros p).timer = (s.pros p).timer :=
      (hs.effect p).timer_of_switch (List.mem_filter.mpr ⟨hswitch, by simp [Event.inLoop]⟩)
    have hgone : s'.ledger (.pro p .sleep) a = 0 := by
      refine (hfit.places (.pro p .sleep)).trans ?_
      simp [Life.places, Source.places]
    rcases hw with hmem | ⟨-, hdue⟩
    · have : a ∈ (s'.pros p).timer.heap.sleepers := htimer ▸ List.mem_map.mpr ⟨_, hmem, rfl⟩
      have := List.count_pos_iff.mpr this
      simp only [Sys.ledger, Processor.ledger] at hgone
      omega
    · exact hdue

end Steps

/-! ## Over a run -/

section Runs

variable {s t : Sys} {tr : List (Action × List Event)} {p : Pid} {a : Addr} {deadline : ℤ}

theorem clock_le_run {C : Sys → Action → Prop} (h : Run machine C s tr t) : s.clock ≤ t.clock :=
  h.invariant (P := fun t ↦ s.clock ≤ t.clock) le_rfl fun hle _ hst ↦
    hle.trans (Step.of_step hst).clock_le

/-- Until its processor switches into it nobody else does, and it sleeps on. -/
theorem Sys.Sleeps.run (h : s.Sleeps p a deadline) (hrun : Run machine Disciplined s tr t) :
    .switchTo p a ∈ events tr ∨ (∀ q, .switchTo q a ∉ events tr) ∧ t.Sleeps p a deadline := by
  induction hrun with
  | nil => exact .inr ⟨fun q ↦ List.not_mem_nil, h⟩
  | snoc _ hc hst ih =>
    simp only [events_append, events_singleton, List.mem_append]
    rcases ih with hmem | ⟨hno, hsleeps⟩
    · exact .inl (.inl hmem)
    · rcases hsleeps.next hc (Step.of_step hst) with ⟨hno', hsleeps'⟩ | ⟨hmem, -⟩
      · exact .inr ⟨fun q ↦ not_or.mpr ⟨hno q, hno' q⟩, hsleeps'⟩
      · exact .inl (.inr hmem)

theorem Effect.count_top_le {clock : ℤ} {call : ℕ} {q : Pid} {P : Processor} {act : Action}
    {L : LoopState} {es : List Event} (h : Effect clock call q P act L es) :
    es.count (.top q) ≤ 1 := by
  cases h with
  | timer _ _ _ hes | pop _ _ _ hes | event _ _ _ hes => simp [hes.count]
  | _ => simp

/-- Once the deadline has come, the loop does not get to the top twice before it resumes the
sleeper. -/
theorem Sys.Sleeps.within_two (h : s.Sleeps p a deadline) (hdue : deadline ≤ Time.now s.clock)
    (hrun : Run machine Disciplined s tr t) (htops : 2 ≤ (events tr).count (.top p)) :
    .switchTo p a ∈ events tr := by
  suffices hor : .switchTo p a ∈ events tr ∨ t.Sleeps p a deadline ∧
      (events tr).count (.top p) ≤ 1 ∧ (1 ≤ (events tr).count (.top p) →
        (t.pros p).pc.Early ∨ a ∉ (t.pros p).timer.heap.sleepers) from
    hor.resolve_right fun ⟨_, hle, _⟩ ↦ by omega
  clear htops
  induction hrun with
  | nil => exact .inr ⟨h, by simp, by simp⟩
  | @snoc tr t u act es hr hc hst ih =>
    simp only [events_append, events_singleton, List.mem_append, List.count_append]
    rcases ih with hmem | ⟨hsleeps, hle, hearly⟩
    · exact .inl (.inl hmem)
    rcases hsleeps.next hc (Step.of_step hst) with ⟨-, hsleeps'⟩ | ⟨hmem, -⟩
    · refine .inr ⟨hsleeps', ?_⟩
      have heff := (Step.of_step hst).effect p
      obtain ⟨L, hL, hℓ, hw⟩ := hsleeps
      obtain ⟨L', hL', hℓ', -⟩ := hsleeps'
      have hone := (hL.fits a).asleep_eq_one hℓ
      have hone' := (hL'.fits a).asleep_eq_one hℓ'
      have hcount : (es.filter (·.inLoop p)).count (.top p) = es.count (.top p) :=
        List.count_filter (by simp [Event.inLoop])
      by_cases htop : .top p ∈ es.filter (·.inLoop p)
      · -- the first visit to the top
        have hnew : ¬1 ≤ (events tr).count (.top p) := fun hold ↦ by
          simp [heff.asleep_of_top htop (hearly hold)] at hone
        have hlast := heff.count_top_le
        have hpc : (u.pros p).pc = .top := heff.pc_of_top htop
        exact ⟨by omega, fun _ ↦ .inl (by rw [hpc]; trivial)⟩
      · rw [← hcount, List.count_eq_zero.mpr htop]
        refine ⟨hle, fun hold ↦ ?_⟩
        exact heff.early ⟨hw, hone⟩ hone' (hdue.trans (Time.now_mono (clock_le_run hr)))
          (hearly hold)
    · exact .inl (.inr hmem)

end Runs

/-- **Nobody is woken early**, in a disciplined run and unless the deadline overflows. From the call
of `co_sleep` on, whatever the other coroutines and threads do, the next switch into the coroutine
is by its own processor, when the clock reads what it read at the call and the time asked for; this
is at most a millisecond less than was asked for. And it takes the coroutine back to its own
code. -/
theorem sleep_not_early {s t u v : Sys} {p q : Pid} {a : Addr} {time : ℤ}
    {tr : List (Action × List Event)} {act : Action} {es es' : List Event}
    (h : Reachable machine Disciplined s) (hexec : (s.pros p).exec = some (a, .sleep time))
    (hrange : Time.now s.clock + time < 2 ^ 63) (hstart : machine.step s (.co p) = some (t, es))
    (hrun : Run machine Disciplined t tr u) (hno : ∀ r, .switchTo r a ∉ events tr)
    (hdisc : Disciplined u act) (hnext : machine.step u act = some (v, es'))
    (hswitch : .switchTo q a ∈ es') :
    q = p ∧ (v.pros p).exec = some (a, .run .user) ∧
      Time.now s.clock + time ≤ Time.now u.clock ∧ 1000 * time ≤ u.clock - s.clock + 999 := by
  have hsleeps := (Sys.Sleeps.start h hexec (Step.of_step hstart)).run hrun
  obtain ⟨-, hsleeps⟩ := hsleeps.resolve_left (hno p)
  rcases hsleeps.next hdisc (Step.of_step hnext) with ⟨hno', -⟩ | ⟨-, hq, hdue, hcode⟩
  · exact absurd hswitch (hno' q)
  · have hread : Time.now s.clock + time ≤ Time.now u.clock := (le_int64 hrange).trans hdue
    refine ⟨hq q hswitch, hcode, hread, ?_⟩
    rw [Time.now_eq, Time.now_eq] at hread
    omega

/-- Coroutine `7` runs and calls `co_sleep(1)`. -/
def toSleep : List Action := toUser ++ [.user 0 (.sleep 1)]

/-- It is suspended, a millisecond goes by, and the next iteration gets as far as its list. -/
def toExpired : List Action :=
  [.co 0, .co 0] ++ List.replicate 5 (.loop 0) ++ [.tick 1000, .epoll 0 []] ++
    List.replicate 3 (.loop 0)

theorem sleep_not_early_one : ∃ s t u v tr es', Reachable machine Disciplined s ∧
    Run machine Disciplined t tr u ∧ machine.step u (.loop 0) = some (v, es') ∧
      .switchTo 0 7 ∈ es' ∧ (v.pros 0).exec = some (7, .run .user) ∧
        Time.now s.clock + 1 ≤ Time.now u.clock := by
  let r := machine.after Disciplined (Sys.fresh 0) toSleep
  have h : Reachable machine Disciplined r.1 := ⟨_, _, ⟨0, rfl⟩, run_after toSleep⟩
  let r₁ := machine.after Disciplined r.1 [.co 0]
  have htr₁ : r₁.2 = [(.co 0, [])] := by decide
  have hstart : Run machine Disciplined r.1 [(.co 0, [])] r₁.1 := htr₁ ▸ run_after _
  let r₂ := machine.after Disciplined r₁.1 toExpired
  have hrun : Run machine Disciplined r₁.1 r₂.2 r₂.1 := run_after toExpired
  let r₃ := machine.after Disciplined r₂.1 [.loop 0]
  have htr₃ : r₃.2 = [(.loop 0, [.resume 0 (some 7), .switchTo 0 7])] := by decide
  have hnext : Run machine Disciplined r₂.1 [(.loop 0, [.resume 0 (some 7), .switchTo 0 7])] r₃.1 :=
    htr₃ ▸ run_after _
  have hevents : events r₂.2 = [.flip 0, .top 0] := by decide
  have hno : ∀ q, .switchTo q 7 ∉ events r₂.2 := fun q ↦ by simp [hevents]
  have hexec : (r.1.pros 0).exec = some (7, .sleep 1) := by decide
  have hawake := sleep_not_early h hexec (by decide) hstart.step_eq.2 hrun hno hnext.step_eq.1
    hnext.step_eq.2 (q := 0) (by decide)
  exact ⟨_, _, _, _, _, _, h, hrun, hnext.step_eq.2, by decide, hawake.2.1, hawake.2.2.1⟩

/-! ## In the long run -/

section Forever

variable {x : Execution machine Disciplined} {p : Pid}

theorem clock_le {i j : ℕ} (h : i ≤ j) : (x.state i).clock ≤ (x.state j).clock := by
  obtain ⟨k, rfl⟩ := Nat.exists_eq_add_of_le h
  exact clock_le_run (x.run_between i k)

theorem Sys.Sleeps.eventually (hinit : machine.init (x.state 0)) (hx : GoesOn x p) {n k : ℕ}
    {a : Addr} {deadline : ℤ} (h : (x.state n).Sleeps p a deadline)
    (hclock : deadline ≤ Time.now (x.state k).clock) : ∃ m, n ≤ m ∧ .switchTo p a ∈ x.out m := by
  -- as far as the deadline
  obtain hmem | ⟨-, hsleeps⟩ := h.run (x.run_between n k)
  · obtain ⟨i, -, hi⟩ := x.mem_events_between.mp hmem
    exact ⟨n + i, Nat.le_add_right n i, hi⟩
  -- and two visits to the top
  obtain ⟨k₁, h₁⟩ := exists_between_top hinit hx (n + k)
  obtain ⟨k₂, h₂⟩ := exists_between_top hinit hx (n + k + k₁)
  have hdue := hclock.trans (Time.now_mono (clock_le (Nat.le_add_left k n)))
  have hmem := hsleeps.within_two hdue ((x.run_between (n + k) k₁).trans (x.run_between _ k₂)) (by
    rw [events_append, List.count_append]
    have := List.count_pos_iff.mpr h₁
    have := List.count_pos_iff.mpr h₂
    omega)
  rw [events_append, List.mem_append, x.mem_events_between, x.mem_events_between] at hmem
  rcases hmem with ⟨i, -, hi⟩ | ⟨i, -, hi⟩
  · exact ⟨_, by omega, hi⟩
  · exact ⟨_, by omega, hi⟩

/-- **Every sleep ends.** In every disciplined run that goes on forever, in which the coroutines of
a processor give the thread back and its loop goes on when they have, a coroutine that calls
`co_sleep` is resumed once the clock has come to the deadline that `runAfter` computes: some later
step switches into it, the first such step does not come before that deadline, and it takes the
coroutine back to its own code. -/
theorem sleep_ends (hinit : machine.init (x.state 0)) (hx : GoesOn x p) {n k : ℕ} {a : Addr}
    {time : ℤ} (hexec : ((x.state n).pros p).exec = some (a, .sleep time))
    (hact : x.action n = .co p)
    (hclock : Timer.runTime (x.state n).clock time ≤ Time.now (x.state k).clock) :
    ∃ m, n < m ∧ .switchTo p a ∈ x.out m ∧ (∀ i, n < i → i < m → ∀ q, .switchTo q a ∉ x.out i) ∧
      Timer.runTime (x.state n).clock time ≤ Time.now (x.state m).clock ∧
        ((x.state (m + 1)).pros p).exec = some (a, .run .user) := by
  have hreach : Reachable machine Disciplined (x.state n) := ⟨_, _, hinit, x.run n⟩
  have hsleeps := Sys.Sleeps.start hreach hexec (hact ▸ Step.of_step (x.step n))
  obtain ⟨m, hm, hmem⟩ := hsleeps.eventually hinit hx hclock
  obtain ⟨m, hm, ⟨_, hq, q, rfl⟩, hfirst⟩ := x.exists_first
    (P := fun ev ↦ ∃ q, ev = .switchTo q a) hm ⟨_, hmem, p, rfl⟩
  obtain ⟨i, rfl⟩ := Nat.exists_eq_add_of_le hm
  obtain hmem | ⟨-, hsleeps⟩ := hsleeps.run (x.run_between (n + 1) i)
  · obtain ⟨j, hj, hj'⟩ := x.mem_events_between.mp hmem
    exact absurd ⟨p, rfl⟩ (hfirst _ (Nat.le_add_right _ _) (by omega) _ hj')
  rcases hsleeps.next (x.guarded _) (Step.of_step (x.step _)) with
    ⟨hno, -⟩ | ⟨hswitch, -, hdue, hcode⟩
  · exact absurd hq (hno q)
  · exact ⟨_, by omega, hswitch, fun j hnj hj r hr ↦ hfirst j hnj hj _ hr ⟨r, rfl⟩, hdue, hcode⟩

end Forever

/-- The sleeper is resumed and returns, and the next iteration begins. -/
def toAwake : List Action := [.loop 0, .user 0 .ret] ++ List.replicate 8 (.loop 0)

/-- A coroutine sleeps for a millisecond, after which the loop goes round forever. -/
theorem sleep_ends_one : ∃ x : Execution machine Disciplined, ∃ n m,
    ((x.state n).pros 0).exec = some (7, .sleep 1) ∧ n < m ∧ .switchTo 0 7 ∈ x.out m ∧
      Timer.runTime (x.state n).clock 1 ≤ Time.now (x.state m).clock := by
  let r := machine.after Disciplined (Sys.fresh 0) toSleep
  have hrun : Run machine Disciplined (Sys.fresh 0) r.2 r.1 := run_after _
  let r' := machine.after Disciplined r.1 (.co 0 :: (toExpired ++ toAwake))
  have hrun' : Run machine Disciplined r.1 r'.2 r'.1 := run_after _
  have hsleep : (r.1.pros 0).exec = some (7, .sleep 1) := by decide
  have hfirst : r'.2[0]? = some (.co 0, []) := by decide
  have hdue : Timer.runTime r.1.clock 1 ≤ Time.now r'.1.clock := by decide
  have hquiet : (r'.1.pros 0).Quiet :=
    ⟨by decide, by decide, by decide, by decide, by decide, by decide, by decide⟩
  clear_value r' r
  obtain ⟨x, hinit, hgoes, hstate, hsteps, hend, -⟩ := exists_goesOn ⟨0, rfl⟩ hrun hrun' hquiet
  have hexec : ((x.state r.2.length).pros 0).exec = some (7, .sleep 1) := by rwa [hstate]
  have hact : x.action r.2.length = .co 0 := (hsteps 0 _ hfirst).1
  obtain ⟨m, hm, hswitch, -, hdue, -⟩ := sleep_ends hinit hgoes hexec hact
    (k := r.2.length + r'.2.length) (by rwa [hstate, hend])
  exact ⟨x, _, m, hexec, hm, hswitch, hdue⟩

end Copnet
