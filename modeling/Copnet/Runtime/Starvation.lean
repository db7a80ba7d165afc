import Copnet.Runtime.Iteration

/-!
# No coroutine starves

What has been pushed on the queues of a processor is popped after at most two flips: the first one
makes it part of the running queue, and the second one comes only when that queue is empty. Between
two flips the loop gets to the top once, so three visits to the top are enough, wherever the loop
stands when the coroutine is pushed. The loop switches into a coroutine in the step that pops it.

How long this takes is up to the coroutines, which give the thread back when they like. If they do,
and the loop goes on when they have, the loop gets to the top again and again, since each of its
iterations is bounded; so every coroutine that is made, and every waiter of a lock that is handed
over, is switched into.
-/

open Transition

namespace Copnet

/-! ## Flips and visits to the top -/

def LoopPc.Flipped : LoopPc → Bool
  | .events _ | .reclaim _ => true
  | _ => false

section Effects

variable {clock : ℤ} {call : ℕ} {q : Pid} {P : Processor} {act : Action} {L : LoopState}
  {es : List Event}

theorem ResumeEvents.count {pCo : Option Addr} (h : ResumeEvents q pCo es) :
    es.count (.flip q) = 0 ∧ es.count (.top q) = 0 := by
  rcases h with rfl | ⟨a, -, rfl⟩ <;> simp

/-- The loop flips once between two visits to the top. -/
theorem Effect.flips (h : Effect clock call q P act L es) :
    L.pc.Flipped.toNat + es.count (.top q) = P.pc.Flipped.toNat + es.count (.flip q) := by
  cases h with
  | flip hexec hpc => simp [LoopPc.Flipped, hpc]
  | reclaimEnd hexec hpc hend => simp [LoopPc.Flipped, hpc]
  | timer hexec hpc ha hes | event hexec hpc hpCo hes =>
    simp [LoopPc.Flipped, hpc, hes.count]
  | pop hexec hpc hcons hes => simp [LoopPc.Flipped, hpc, hes.count]
  | stay | wakeUp | runAfter _ | arm _ | expire _ => rfl
  | push cos hact => simp [Processor.loopState]
  | start _ hpc | top _ hpc | epoll _ hpc | getExpired _ hpc | readTimefd _ hpc | rearm _ hpc
  | timersEnd _ hpc _ | readQue _ hpc | drain _ hpc _ | drainEnd _ hpc _ | eventsEnd _ hpc _
  | reclaim _ hpc _ => simp [LoopPc.Flipped, hpc]

theorem Effect.count_flip_le (h : Effect clock call q P act L es) : es.count (.flip q) ≤ 1 := by
  cases h with
  | timer _ _ _ hes | pop _ _ _ hes | event _ _ _ hes => simp [hes.count]
  | _ => simp

end Effects

section Runs

variable {C : Sys → Action → Prop} {s t : Sys} {tr : List (Action × List Event)} {q : Pid}

theorem flips_step {act : Action} {es : List Event} (h : Step s act t es) (q : Pid) :
    (t.pros q).pc.Flipped.toNat + es.count (.top q) =
        (s.pros q).pc.Flipped.toNat + es.count (.flip q) ∧
      es.count (.flip q) ≤ 1 := by
  have heff := h.effect q
  have hflips := heff.flips
  have hle := heff.count_flip_le
  rw [List.count_filter (by simp [Event.inLoop])] at hflips hle
  rw [List.count_filter (by simp [Event.inLoop])] at hflips
  exact ⟨hflips, hle⟩

theorem flips_run (h : Run machine C s tr t) (q : Pid) :
    (t.pros q).pc.Flipped.toNat + (events tr).count (.top q) =
      (s.pros q).pc.Flipped.toNat + (events tr).count (.flip q) := by
  induction h with
  | nil => rfl
  | snoc _ _ hst ih =>
    have hstep := (flips_step (Step.of_step hst) q).1
    rw [events_append, events_singleton, List.count_append, List.count_append]
    omega

/-- After two flips everything that was queued has been popped. -/
theorem queued_popped (h : Run machine C s tr t) (hs : (s.pros q).loopState.Drains)
    (hflips : 2 ≤ (events tr).count (.flip q)) :
    (s.pros q).loopState.queued <+: pops q (events tr) := by
  induction h with
  | nil => simp at hflips
  | @snoc tr t u act es hr hc hst ih =>
    rw [events_append, events_singleton, List.count_append] at hflips
    rw [events_append, events_singleton, pops_append]
    by_cases htwo : 2 ≤ (events tr).count (.flip q)
    · exact (ih htwo).trans (List.prefix_append _ _)
    · -- this is the second flip, and by now the running queue is empty
      have hle := (flips_step (Step.of_step hst) q).2
      have hflip : .flip q ∈ es := List.count_pos_iff.mp (by omega)
      have hpops := queued_prefix hr hs (List.count_pos_iff.mp (by omega))
      rcases ((Step.of_step hst).effect q).front (drains_run hr hs) with ⟨hnil, -⟩ | ⟨-, hno⟩
      · rw [hnil, List.map_nil, List.append_nil] at hpops
        exact hpops.trans (List.prefix_append _ _)
      · exact absurd (List.mem_filter.mpr ⟨hflip, by simp [Event.inLoop]⟩) hno

theorem queued_popped_of_tops (h : Run machine C s tr t) (hs : (s.pros q).loopState.Drains)
    (htops : 3 ≤ (events tr).count (.top q)) :
    (s.pros q).loopState.queued <+: pops q (events tr) := by
  have hflips := flips_run h q
  have hle : (s.pros q).pc.Flipped.toNat ≤ 1 := Bool.toNat_le _
  exact queued_popped h hs (by omega)

end Runs

/-! ## From the queue to the thread -/

theorem mem_pops {q : Pid} {a : Addr} {evs : List Event} :
    a ∈ pops q evs ↔ ∃ que, .pop q que a ∈ evs := by
  constructor
  · intro h
    obtain ⟨ev, hev, ha⟩ := List.mem_flatMap.mp h
    cases ev <;> simp only [Event.popped, List.not_mem_nil] at ha
    split at ha
    · next hp =>
      rw [List.mem_singleton] at ha
      subst hp ha
      exact ⟨_, hev⟩
    · exact absurd ha List.not_mem_nil
  · rintro ⟨que, h⟩
    exact List.mem_flatMap.mpr ⟨_, h, by simp [Event.popped]⟩

section Switches

variable {s s' t : Sys} {L : Addr → Life} {act : Action} {es : List Event} {q : Pid} {a : Addr}
  {tr : List (Action × List Event)}

theorem LifeStep.switch_of_pop {ℓ ℓ' : Life} (h : LifeStep s act a ℓ es ℓ') {que : Bool}
    (hpop : .pop q que a ∈ es) : .switchTo q a ∈ es := by
  cases h <;> simp_all

theorem Step.switch_of_pop (hs : Step s act s' es) (hL : Lives s L) (hdisc : Disciplined s act)
    {que : Bool} (hpop : .pop q que a ∈ es) : .switchTo q a ∈ es := by
  obtain ⟨L', -, hlife⟩ := hs.lives hdisc hL
  have hpop' : .pop q que a ∈ lifeEvents a es :=
    List.mem_filter.mpr ⟨hpop, by simp [Event.inLife]⟩
  exact List.mem_of_mem_filter ((hlife a).switch_of_pop hpop')

theorem switch_of_pop_run (h₁ : Reachable machine Disciplined s)
    (h : Run machine Disciplined s tr t) (ha : a ∈ pops q (events tr)) :
    .switchTo q a ∈ events tr := by
  induction h with
  | nil => simp at ha
  | @snoc tr t u act es hr hc hst ih =>
    rw [events_append, events_singleton, pops_append, List.mem_append] at ha
    rw [events_append, events_singleton, List.mem_append]
    rcases ha with ha | ha
    · exact .inl (ih ha)
    · obtain ⟨que, hpop⟩ := mem_pops.mp ha
      obtain ⟨s₀, tr₀, hinit, hrun₀⟩ := h₁
      obtain ⟨L, hL⟩ := lives_of_reachable (fun _ _ h ↦ h) ⟨s₀, _, hinit, hrun₀.trans hr⟩
      exact .inr ((Step.of_step hst).switch_of_pop hL hc hpop)

end Switches

/-- **At most three visits to the top.** In every disciplined run from a state that such a run
reaches, in which the loop of a processor gets to the top three times, all that was queued there at
the start has been popped, in the order of the queue and before anything else, and has been switched
into. -/
theorem queued_within_three {s t : Sys} {tr : List (Action × List Event)} {q : Pid}
    (h₁ : Reachable machine Disciplined s) (h : Run machine Disciplined s tr t)
    (htops : 3 ≤ (events tr).count (.top q)) :
    (s.pros q).queue.contents.map Entry.co <+: pops q (events tr) ∧
      ∀ e ∈ (s.pros q).queue.contents, .switchTo q e.co ∈ events tr := by
  obtain ⟨s₀, tr₀, hinit, hrun₀⟩ := h₁
  have hpops : (s.pros q).queue.contents.map Entry.co <+: pops q (events tr) :=
    queued_popped_of_tops h (drains_run hrun₀ (drains_init hinit q)) htops
  exact ⟨hpops, fun e he ↦ switch_of_pop_run ⟨s₀, tr₀, hinit, hrun₀⟩ h
    (hpops.subset (List.mem_map_of_mem he))⟩

/-- An iteration of processor `0` in which nothing is resumed, but for what `more` does after the
pop loop. -/
def iterationOf (more : List Action) : List Action :=
  [.loop 0, .epoll 0 []] ++ List.replicate 6 (.loop 0) ++ more ++ List.replicate 3 (.loop 0)

/-- Coroutine `7` is made for processor `0`, whose loop is at the top. -/
def toPushed : List Action := [.start 0 0, .extCall 0 (.goNewCo 0 7), .ext 0, .ext 0]

/-- Three iterations, of which the second one pops the coroutine, which returns. -/
def toThirdTop : List Action :=
  iterationOf [] ++ iterationOf [.loop 0, .user 0 .ret, .loop 0, .loop 0] ++ iterationOf []

theorem queued_within_three_new : ∃ s t tr, Reachable machine Disciplined s ∧
    Run machine Disciplined s tr t ∧ (s.pros 0).queue.contents.map Entry.co = [7] ∧
      [7] <+: pops 0 (events tr) := by
  let r := machine.after Disciplined (Sys.fresh 0) toPushed
  have h₁ : Reachable machine Disciplined r.1 := ⟨_, _, ⟨0, rfl⟩, run_after toPushed⟩
  let r' := machine.after Disciplined r.1 toThirdTop
  have h : Run machine Disciplined r.1 r'.2 r'.1 := run_after toThirdTop
  have hqueue : (r.1.pros 0).queue.contents.map Entry.co = [7] := by decide
  refine ⟨_, _, _, h₁, h, hqueue, ?_⟩
  rw [← hqueue]
  exact (queued_within_three h₁ h (by decide)).1

/-! ## The loop gets to the top again and again -/

theorem Effect.pc_of_top {clock : ℤ} {call : ℕ} {q : Pid} {P : Processor} {act : Action}
    {L : LoopState} {es : List Event} (h : Effect clock call q P act L es) (htop : .top q ∈ es) :
    L.pc = .top := by
  cases h with
  | reclaimEnd hexec hpc hend => rfl
  | timer _ _ _ hes | event _ _ _ hes | pop _ _ _ hes =>
    rcases hes with rfl | ⟨a, -, rfl⟩ <;> simp at htop
  | _ => simp at htop

theorem Effect.pops_of_push {clock : ℤ} {call : ℕ} {q : Pid} {P : Processor} {act : Action}
    {L : LoopState} {es : List Event} (h : Effect clock call q P act L es) {cos : List Addr}
    (hpush : .push q cos ∈ es) : pops q es = [] := by
  cases h with
  | push cos' hact => rfl
  | timer _ _ _ hes | event _ _ _ hes | pop _ _ _ hes =>
    rcases hes with rfl | ⟨a, -, rfl⟩ <;> simp at hpush
  | _ => simp at hpush

theorem exists_last_top {C : Sys → Action → Prop} {s₀ s : Sys} {tr : List (Action × List Event)}
    {q : Pid} (h : Run machine C s₀ tr s) (hpc : (s₀.pros q).pc = .top) :
    ∃ s₁ tr₁ tr₂, Run machine C s₀ tr₁ s₁ ∧ (s₁.pros q).pc = .top ∧ Run machine C s₁ tr₂ s ∧
      tr = tr₁ ++ tr₂ ∧ .top q ∉ events tr₂ := by
  induction h with
  | nil => exact ⟨s₀, [], [], .nil, hpc, .nil, rfl, List.not_mem_nil⟩
  | @snoc tr t u act es hr hc hst ih =>
    by_cases htop : .top q ∈ es
    · refine ⟨u, _, [], hr.snoc hc hst, ?_, .nil, (List.append_nil _).symm, List.not_mem_nil⟩
      exact ((Step.of_step hst).effect q).pc_of_top
        (List.mem_filter.mpr ⟨htop, by simp [Event.inLoop]⟩)
    · obtain ⟨s₁, tr₁, tr₂, h₁, hpc₁, h₂, rfl, hno⟩ := ih
      refine ⟨s₁, tr₁, tr₂ ++ [(act, es)], h₁, hpc₁, h₂.snoc hc hst, List.append_assoc .., ?_⟩
      rw [events_append, events_singleton, List.mem_append, not_or]
      exact ⟨hno, htop⟩

section Forever

variable (x : Execution machine Disciplined) (q : Pid)

/-- The coroutines give the thread of `q` back again and again, and its loop goes on when they
have. -/
def GoesOn : Prop :=
  (∀ n, ∃ m, n ≤ m ∧ ((x.state m).pros q).exec = none) ∧
    ∀ n, ((x.state n).pros q).exec = none → ∃ m, n ≤ m ∧ (x.action m).ofLoop q = true

variable {x q}

theorem GoesOn.exists_ofLoop (hx : GoesOn x q) (n : ℕ) :
    ∃ m, n ≤ m ∧ (x.action m).ofLoop q = true := by
  obtain ⟨m, hm, hexec⟩ := hx.1 n
  obtain ⟨k, hk, hof⟩ := hx.2 m hexec
  exact ⟨k, hm.trans hk, hof⟩

theorem GoesOn.exists_pc_top (hinit : machine.init (x.state 0)) (hx : GoesOn x q) :
    ∃ n, ((x.state n).pros q).pc = .top := by
  by_contra hno
  have heff := fun n ↦ (Step.of_step (x.step n)).effect q
  have hstart : ∀ n, ((x.state n).pros q).pc = .start := by
    intro n
    induction n with
    | zero =>
      obtain ⟨clock, heq⟩ := hinit
      rw [heq]
      rfl
    | succ n ih =>
      rcases (heff n).of_start ih with ⟨-, -, htop⟩ | ⟨-, hpc⟩
      · exact absurd ⟨n + 1, htop⟩ hno
      · exact hpc
  obtain ⟨n, -, hof⟩ := hx.exists_ofLoop 0
  rcases (heff n).of_start (hstart n) with ⟨-, -, htop⟩ | ⟨hact, -⟩
  · exact hno ⟨n + 1, htop⟩
  · exact absurd hof (by simp [hact])

/-- An iteration that never ends would take more steps than there are. -/
theorem exists_top (hinit : machine.init (x.state 0)) (hx : GoesOn x q) (n : ℕ) :
    ∃ m, n ≤ m ∧ .top q ∈ x.out m := by
  by_contra hno
  obtain ⟨k, hpc⟩ := hx.exists_pc_top hinit
  obtain ⟨s₁, tr₁, tr₂, h₁, hpc₁, h₂, htr, hno₂⟩ := exists_last_top (x.run_between k n) hpc
  have hreach : Reachable machine Disciplined s₁ := ⟨_, _, hinit, (x.run k).trans h₁⟩
  obtain ⟨d, hd⟩ := x.lt_countP_upTo (q := (·.ofLoop q)) hx.exists_ofLoop
    ((x.upTo k).countP (·.1.ofLoop q) + tr₁.countP (·.1.ofLoop q) +
      (10 + 2 * (s₁.pros q).timer.heap.sleepers.length + 3 * (s₁.pros q).queue.front.length +
        2 * (s₁.pros q).epoller.maxEvents))
  -- the iteration in progress at step `k + n`, as far as step `k + n + d`
  have hno' : .top q ∉ events (tr₂ ++ x.between (k + n) d) := by
    rw [events_append, List.mem_append, not_or]
    refine ⟨hno₂, fun hmem ↦ ?_⟩
    obtain ⟨i, -, hi⟩ := x.mem_events_between.mp hmem
    exact hno ⟨k + n + i, by omega, hi⟩
  have hle := (Iteration.of_run hreach hpc₁ (h₂.trans (x.run_between (k + n) d)) hno').countP_le
  have hcount : (x.upTo d).countP (fun st ↦ st.1.ofLoop q) ≤
      (x.upTo (k + n + d)).countP fun st ↦ st.1.ofLoop q := by
    rw [Nat.add_comm, x.upTo_add, List.countP_append]
    exact Nat.le_add_right _ _
  rw [x.upTo_add, x.upTo_add, htr, List.append_assoc, List.append_assoc, List.countP_append,
    List.countP_append] at hcount
  rw [List.length_map] at hle
  omega

theorem exists_between_top (hinit : machine.init (x.state 0)) (hx : GoesOn x q) (n : ℕ) :
    ∃ k, .top q ∈ events (x.between n k) := by
  obtain ⟨m, hm, htop⟩ := exists_top hinit hx n
  obtain ⟨i, rfl⟩ := Nat.exists_eq_add_of_le hm
  exact ⟨i + 1, x.mem_events_between.mpr ⟨i, Nat.lt_succ_self i, htop⟩⟩

theorem queued_eventually_switched (hinit : machine.init (x.state 0)) (hx : GoesOn x q) {n : ℕ}
    {a : Addr} (hqueued : a ∈ ((x.state n).pros q).loopState.queued) :
    ∃ m, n ≤ m ∧ .switchTo q a ∈ x.out m := by
  have hreach : Reachable machine Disciplined (x.state n) := ⟨_, _, hinit, x.run n⟩
  -- three visits to the top
  obtain ⟨k₁, h₁⟩ := exists_between_top hinit hx n
  obtain ⟨k₂, h₂⟩ := exists_between_top hinit hx (n + k₁)
  obtain ⟨k₃, h₃⟩ := exists_between_top hinit hx (n + k₁ + k₂)
  have hrun := ((x.run_between n k₁).trans (x.run_between _ k₂)).trans (x.run_between _ k₃)
  have htops : 3 ≤ (events (x.between n k₁ ++ x.between (n + k₁) k₂ ++
      x.between (n + k₁ + k₂) k₃)).count (.top q) := by
    rw [events_append, events_append, List.count_append, List.count_append]
    have := List.count_pos_iff.mpr h₁
    have := List.count_pos_iff.mpr h₂
    have := List.count_pos_iff.mpr h₃
    omega
  have hpopped := (queued_popped_of_tops hrun
    (drains_run (x.run n) (drains_init hinit q)) htops).subset hqueued
  have hswitch := switch_of_pop_run hreach hrun hpopped
  rw [events_append, events_append, List.mem_append, List.mem_append, x.mem_events_between,
    x.mem_events_between, x.mem_events_between] at hswitch
  rcases hswitch with (⟨i, -, hi⟩ | ⟨i, -, hi⟩) | ⟨i, -, hi⟩
  · exact ⟨_, by omega, hi⟩
  · exact ⟨_, by omega, hi⟩
  · exact ⟨_, by omega, hi⟩

/-- **Every coroutine that is pushed gets to run.** In every disciplined run that goes on forever,
in which the coroutines of a processor give the thread back and its loop goes on when they have,
whatever is pushed on the queues of the processor is switched into later on. -/
theorem pushed_eventually_switched (hinit : machine.init (x.state 0)) (hx : GoesOn x q) {n : ℕ}
    {cos : List Addr} (hpush : .push q cos ∈ x.out n) {a : Addr} (ha : a ∈ cos) :
    ∃ m, n < m ∧ .switchTo q a ∈ x.out m := by
  -- after the push it is in the queue
  have hqueued : a ∈ ((x.state (n + 1)).pros q).loopState.queued := by
    have hpush' : .push q cos ∈ (x.out n).filter (·.inLoop q) :=
      List.mem_filter.mpr ⟨hpush, by simp [Event.inLoop]⟩
    have hpops := ((Step.of_step (x.step n)).effect q).pops_of_push hpush'
    rw [pops_filter] at hpops
    have hstep := queued_step (drains_run (x.run n) (drains_init hinit q)) (x.step n)
    rw [hpops, List.nil_append] at hstep
    rw [← hstep]
    exact List.mem_append_right _ (List.mem_flatMap.mpr ⟨_, hpush, by simpa [Event.pushed]⟩)
  exact queued_eventually_switched hinit hx hqueued

end Forever

/-! ### Nothing to do -/

theorem Sys.setPro_pros (s : Sys) (p : Pid) : s.setPro p (s.pros p) = s := by
  rw [setPro, Function.update_eq_self]

theorem Sys.setPro_setPro (s : Sys) (p : Pid) (P P' : Processor) :
    (s.setPro p P).setPro p P' = s.setPro p P' := by
  simp only [setPro, Function.update_idem]

structure Processor.Quiet (P : Processor) : Prop where
  exec : P.exec = none
  bufs : ∀ i, P.queue.bufs i = []
  act : P.actCoroutines = []
  expired : P.timerExpiredCo = []
  removed : P.removedCo = []
  heap : P.timer.heap.entries = []
  pc : ∀ rq, P.pc ≠ .pop rq

/-- The next step of a loop that has nothing to do. -/
def loopNext (p : Pid) (s : Sys) : Action :=
  if (s.pros p).pc = .start then .start p 0
  else if (s.pros p).pc = .epollWait then .epoll p [] else .loop p

theorem disciplined_loopNext (p : Pid) (s : Sys) : Disciplined s (loopNext p s) := by
  unfold loopNext
  split
  · trivial
  · split <;> trivial

theorem ofLoop_loopNext (p : Pid) (s : Sys) : (loopNext p s).ofLoop p = true := by
  unfold loopNext
  split
  · exact decide_eq_true rfl
  · split <;> exact decide_eq_true rfl

theorem Processor.Quiet.exists_next {s : Sys} {p : Pid} (h : (s.pros p).Quiet) :
    ∃ P es, machine.step s (loopNext p s) = some (s.setPro p P, es) ∧ P.Quiet := by
  obtain ⟨hexec, hbufs, hact, hexpired, hremoved, hheap, hpop⟩ := h
  cases hpc : (s.pros p).pc with
  | pop rq => exact absurd hpc (hpop rq)
  | start =>
    simp only [machine, loopNext, hpc, if_true, step, hexec, Sys.startStep]
    exact ⟨_, _, rfl, rfl, hbufs, hact, hexpired, hremoved, hheap, by simp⟩
  | epollWait =>
    simp only [machine, loopNext, hpc, reduceCtorEq, if_false, if_true, step, hexec, Sys.epollStep,
      Epoller.Reports, true_and]
    exact ⟨_, _, if_pos ⟨.nil, Nat.zero_le _, by simp⟩, rfl, hbufs, by simp [hact, Epoller.active],
      hexpired, hremoved, hheap, by simp⟩
  | getExpired =>
    simp only [machine, loopNext, hpc, reduceCtorEq, if_false, step, hexec, if_true, Sys.loopStep]
    refine ⟨_, _, rfl, rfl, hbufs, hact, ?_, hremoved, ?_, by simp⟩
    · simp [hexpired, Timer.expiredCo, TimerHeap.expired, hheap]
    · simp [TimerHeap.popExpired, hheap]
  | rearm =>
    simp only [machine, loopNext, hpc, reduceCtorEq, if_false, step, hexec, if_true, Sys.loopStep]
    exact ⟨_, _, rfl, rfl, hbufs, hact, hexpired, hremoved, by simp [hheap], by simp⟩
  | top =>
    simp only [machine, loopNext, hpc, reduceCtorEq, if_false, step, hexec, if_true, Sys.loopStep]
    exact ⟨_, _, rfl, rfl, hbufs, rfl, rfl, hremoved, hheap, by simp⟩
  | reclaim i =>
    simp only [machine, loopNext, hpc, reduceCtorEq, if_false, step, hexec, if_true, Sys.loopStep,
      hremoved, List.getElem?_nil]
    exact ⟨_, _, rfl, rfl, hbufs, hact, hexpired, rfl, hheap, by simp⟩
  | readTimefd | flip rq =>
    simp only [machine, loopNext, hpc, reduceCtorEq, if_false, step, hexec, if_true, Sys.loopStep]
    exact ⟨_, _, rfl, rfl, hbufs, hact, hexpired, hremoved, hheap, by simp⟩
  | readQue | timers i | drain rq | events i =>
    simp only [machine, loopNext, hpc, reduceCtorEq, if_false, step, hexec, if_true, Sys.loopStep,
      hexpired, hact, hbufs, List.getElem?_nil]
    exact ⟨_, _, rfl, hexec, hbufs, hact, hexpired, hremoved, hheap, by simp⟩

/-- A run that leaves a loop with nothing to do goes on forever, and nothing but the loop
changes. -/
theorem exists_goesOn {s₀ s t : Sys} {tr tr' : List (Action × List Event)} {p : Pid}
    (hinit : machine.init s₀) (h : Run machine Disciplined s₀ tr s)
    (h' : Run machine Disciplined s tr' t) (hquiet : (t.pros p).Quiet) :
    ∃ x : Execution machine Disciplined, machine.init (x.state 0) ∧ GoesOn x p ∧
      x.state tr.length = s ∧
      (∀ i st, tr'[i]? = some st → x.action (tr.length + i) = st.1 ∧ x.out (tr.length + i) = st.2) ∧
        x.state (tr.length + tr'.length) = t ∧
          ∀ k, ∃ P, x.state (tr.length + (tr'.length + k)) = t.setPro p P ∧ P.Quiet := by
  obtain ⟨y, hy, hnext⟩ := Execution.exists_follow (C := Disciplined) (f := loopNext p)
    (P := fun s ↦ ∃ P, s = t.setPro p P ∧ P.Quiet) ⟨t.pros p, t.setPro_pros p |>.symm, hquiet⟩ <| by
      rintro u ⟨P, rfl, hP⟩
      refine ⟨disciplined_loopNext p _, ?_⟩
      have hP' : ((t.setPro p P).pros p).Quiet := by rwa [Sys.pros_setPro_self]
      obtain ⟨P', es, hstep, hquiet'⟩ := hP'.exists_next
      exact ⟨_, es, hstep, P', Sys.setPro_setPro .., hquiet'⟩
  obtain ⟨x, rfl, hs, htr', hlater⟩ := Execution.exists_through h h' y hy
  have hend : ∀ k, ∃ P, x.state (tr.length + (tr'.length + k)) = t.setPro p P ∧ P.Quiet :=
    fun k ↦ (hlater k).1 ▸ (hnext k).1
  refine ⟨x, hinit, ⟨fun k ↦ ⟨tr.length + (tr'.length + k), by omega, ?_⟩,
    fun k _ ↦ ⟨tr.length + (tr'.length + k), by omega, ?_⟩⟩, hs, htr', (hlater 0).1.trans hy, hend⟩
  · obtain ⟨P, hstate, hP⟩ := hend k
    rw [hstate, Sys.pros_setPro_self]
    exact hP.exec
  · rw [(hlater k).2, (hnext k).2]
    exact ofLoop_loopNext p _

/-- A coroutine is made, runs and is gone, after which the loop goes round forever. -/
theorem pushed_eventually_switched_new : ∃ x : Execution machine Disciplined, ∃ n m,
    .push 0 [7] ∈ x.out n ∧ n < m ∧ .switchTo 0 7 ∈ x.out m := by
  let r := machine.after Disciplined (Sys.fresh 0) (toPushed ++ toThirdTop)
  have hrun : Run machine Disciplined (Sys.fresh 0) r.2 r.1 := run_after _
  have hquiet : (r.1.pros 0).Quiet :=
    ⟨rfl, by decide, rfl, rfl, rfl, rfl, by decide⟩
  have hpush : r.2[2]? = some (.ext 0, [.push 0 [7]]) := by decide
  obtain ⟨x, hinit, hgoes, -, hsteps, -⟩ := exists_goesOn ⟨0, rfl⟩ .nil hrun hquiet
  have hout : .push 0 [7] ∈ x.out (0 + 2) :=
    (hsteps 2 _ hpush).2 ▸ List.mem_cons_self
  obtain ⟨m, hm, hswitch⟩ :=
    pushed_eventually_switched hinit hgoes hout (List.mem_singleton.mpr rfl)
  exact ⟨x, _, m, hout, hm, hswitch⟩

end Copnet
