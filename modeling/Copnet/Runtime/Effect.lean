import Copnet.Runtime.Cases

/-!
# What a step does to one loop

Most of what a step does is of no concern to the loop of a given processor `q`: it reads its queue,
its two lists and its timer, and knows where it stands. `Effect` lists what a step of the whole
system, taken by whichever thread, can do to that part of `q` and which of its events are about it.
Laws about one loop are proved by cases on `Effect`, whatever the other processors do.
-/

open Transition

namespace Copnet

/-- The part of a processor that its loop works on. -/
structure LoopState where
  /-- `newCoroutines_` and `runningNewQue_`. -/
  queue : DoubleBuffer Entry
  /-- `actCoroutines_`. -/
  actCoroutines : List (Option Addr)
  /-- `timerExpiredCo_`. -/
  timerExpiredCo : List Addr
  /-- `timer_`. -/
  timer : Timer
  /-- The size of `activeEpollEvents_`. -/
  maxEvents : ℕ
  /-- Where the loop stands. -/
  pc : LoopPc

def Processor.loopState (P : Processor) : LoopState :=
  ⟨P.queue, P.actCoroutines, P.timerExpiredCo, P.timer, P.epoller.maxEvents, P.pc⟩

def Event.inLoop (q : Pid) : Event → Bool
  | .push p _ | .pop p _ _ | .flip p | .resume p _ | .switchTo p _ | .top p => p = q
  | _ => false

/-- What `Processor::resume` reports of the loop: the call, and the switch if there was one. -/
def ResumeEvents (q : Pid) (pCo : Option Addr) (es : List Event) : Prop :=
  es = [.resume q pCo] ∨ ∃ a, pCo = some a ∧ es = [.resume q (some a), .switchTo q a]

/-- What a step can do to the loop of processor `q` in state `P`. -/
inductive Effect (clock : ℤ) (call : ℕ) (q : Pid) (P : Processor) :
    Action → LoopState → List Event → Prop
  | stay {act : Action} (hact : act.ofLoop q = false) : Effect clock call q P act P.loopState []
  | push {act : Action} (cos : List Addr) (hact : act.ofLoop q = false) :
      Effect clock call q P act
        { P.loopState with queue := P.queue.push (cos.map (⟨·, call⟩)) } [.push q cos]
  | wakeUp {act : Action} (hact : act.ofLoop q = false) (hpc : P.pc ≠ .start) :
      Effect clock call q P act { P.loopState with timer := P.timer.wakeUp clock } []
  | runAfter {x a : Addr} {time : ℤ} (hexec : P.exec = some (x, .sleep time)) :
      Effect clock call q P (.co q)
        { P.loopState with timer := P.timer.push (Timer.runTime clock time) a } []
  | arm {x : Addr} {time : ℤ} (hexec : P.exec = some (x, .arm time)) :
      Effect clock call q P (.co q)
        { P.loopState with timer := P.timer.rearmFor clock time } []
  | expire {timer : Timer} (hexp : P.timer.expire clock = some timer) :
      Effect clock call q P (.expire q) { P.loopState with timer } []
  | start {timeFd : Fd} (hexec : P.exec = none) (hpc : P.pc = .start) :
      Effect clock call q P (.start q timeFd) { P.loopState with pc := .top } []
  | top (hexec : P.exec = none) (hpc : P.pc = .top) :
      Effect clock call q P (.loop q)
        { P.loopState with actCoroutines := [], timerExpiredCo := [], pc := .epollWait } []
  | epoll {fds : List Fd} (hexec : P.exec = none) (hpc : P.pc = .epollWait)
      (hrep : P.epoller.Reports fds) :
      Effect clock call q P (.epoll q fds)
        { P.loopState with
          actCoroutines := P.actCoroutines ++ P.epoller.active fds
          maxEvents := (P.epoller.grow fds).maxEvents
          pc := .getExpired } []
  | getExpired (hexec : P.exec = none) (hpc : P.pc = .getExpired) :
      Effect clock call q P (.loop q)
        { P.loopState with
          timerExpiredCo := P.timerExpiredCo ++ P.timer.expiredCo clock
          timer := P.timer.popExpired clock
          pc := .readTimefd } []
  | readTimefd (hexec : P.exec = none) (hpc : P.pc = .readTimefd) :
      Effect clock call q P (.loop q)
        { P.loopState with timer := P.timer.readTimefd, pc := .rearm } []
  | rearm (hexec : P.exec = none) (hpc : P.pc = .rearm) :
      Effect clock call q P (.loop q)
        { P.loopState with timer := P.timer.rearm clock, pc := .timers 0 } []
  | timer {i : ℕ} {a : Addr} {es : List Event} (hexec : P.exec = none) (hpc : P.pc = .timers i)
      (ha : P.timerExpiredCo[i]? = some a) (hes : ResumeEvents q (some a) es) :
      Effect clock call q P (.loop q) { P.loopState with pc := .timers (i + 1) } es
  | timersEnd {i : ℕ} (hexec : P.exec = none) (hpc : P.pc = .timers i)
      (hend : P.timerExpiredCo[i]? = none) :
      Effect clock call q P (.loop q) { P.loopState with pc := .readQue } []
  | readQue (hexec : P.exec = none) (hpc : P.pc = .readQue) :
      Effect clock call q P (.loop q) { P.loopState with pc := .drain P.queue.running } []
  | drain {rq : Bool} (hexec : P.exec = none) (hpc : P.pc = .drain rq)
      (hne : P.queue.bufs rq ≠ []) :
      Effect clock call q P (.loop q) { P.loopState with pc := .pop rq } []
  | drainEnd {rq : Bool} (hexec : P.exec = none) (hpc : P.pc = .drain rq)
      (hnil : P.queue.bufs rq = []) :
      Effect clock call q P (.loop q) { P.loopState with pc := .flip rq } []
  | pop {rq : Bool} {e : Entry} {rest : List Entry} {es : List Event} (hexec : P.exec = none)
      (hpc : P.pc = .pop rq) (hcons : P.queue.bufs rq = e :: rest)
      (hes : ResumeEvents q (some e.co) es) :
      Effect clock call q P (.loop q)
        { P.loopState with queue := P.queue.pop rq, pc := .drain rq } (.pop q rq e.co :: es)
  | flip {rq : Bool} (hexec : P.exec = none) (hpc : P.pc = .flip rq) :
      Effect clock call q P (.loop q)
        { P.loopState with queue := P.queue.flip rq, pc := .events 0 } [.flip q]
  | event {i : ℕ} {pCo : Option Addr} {es : List Event} (hexec : P.exec = none)
      (hpc : P.pc = .events i) (hpCo : P.actCoroutines[i]? = some pCo)
      (hes : ResumeEvents q pCo es) :
      Effect clock call q P (.loop q) { P.loopState with pc := .events (i + 1) } es
  | eventsEnd {i : ℕ} (hexec : P.exec = none) (hpc : P.pc = .events i)
      (hend : P.actCoroutines[i]? = none) :
      Effect clock call q P (.loop q) { P.loopState with pc := .reclaim 0 } []
  | reclaim {i : ℕ} {a : Addr} (hexec : P.exec = none) (hpc : P.pc = .reclaim i)
      (ha : P.removedCo[i]? = some a) :
      Effect clock call q P (.loop q) { P.loopState with pc := .reclaim (i + 1) } []
  | reclaimEnd {i : ℕ} (hexec : P.exec = none) (hpc : P.pc = .reclaim i)
      (hend : P.removedCo[i]? = none) :
      Effect clock call q P (.loop q) { P.loopState with pc := .top } [.top q]

theorem Effect.of_start {clock : ℤ} {call : ℕ} {q : Pid} {P : Processor} {act : Action}
    {L : LoopState} {es : List Event} (h : Effect clock call q P act L es) (hpc : P.pc = .start) :
    (∃ timeFd, act = .start q timeFd ∧ L.pc = .top) ∨ act.ofLoop q = false ∧ L.pc = .start := by
  cases h with
  | start _ _ => exact .inl ⟨_, rfl, rfl⟩
  | stay hact | push _ hact | wakeUp hact => exact .inr ⟨hact, hpc⟩
  | runAfter _ | arm _ | expire _ => exact .inr ⟨rfl, hpc⟩
  | _ => simp_all

/-! ## Resuming -/

namespace Resumes

variable {s s' : Sys} {p q : Pid} {pCo : Option Addr} {es : List Event}

theorem loopState (h : Resumes s p pCo s' es) (q : Pid) :
    (s'.pros q).loopState = (s.pros q).loopState := by
  by_cases hq : q = p
  · subst hq
    cases h <;> simp [Sys.setCur, Sys.setExec, Processor.loopState]
  · cases h <;> simp [Sys.setCur, Sys.setExec, Sys.pros_setPro_of_ne _ _ _ hq]

theorem resumeEvents (h : Resumes s p pCo s' es) :
    ResumeEvents p pCo (es.filter (·.inLoop p)) := by
  cases h with
  | null | unknown _ | drop _ _ _ _ => exact .inl (by simp [Event.inLoop])
  | start _ _ _ _ | goOn _ _ _ => exact .inr ⟨_, rfl, by simp [Event.inLoop]⟩

theorem filter_inLoop_of_ne (h : Resumes s p pCo s' es) (hq : q ≠ p) :
    es.filter (·.inLoop q) = [] := by
  cases h <;> simp [Event.inLoop, hq.symm]

end Resumes

/-! ## Every step has an effect -/

section LoopStates

variable (s : Sys) (p q : Pid)

theorem loopState_setPro {P : Processor} (h : P.loopState = (s.pros p).loopState) :
    ((s.setPro p P).pros q).loopState = (s.pros q).loopState := by
  by_cases hq : q = p
  · rw [hq, Sys.pros_setPro_self, h]
  · rw [Sys.pros_setPro_of_ne _ _ _ hq]

@[simp] theorem loopState_setExec (e : Option (Addr × Code)) :
    ((s.setExec p e).pros q).loopState = (s.pros q).loopState := loopState_setPro s p q rfl

theorem pros_goCoBatch (cos : List Addr) :
    (s.goCoBatch p cos).pros = (s.setPro p { s.pros p with
      queue := (s.pros p).queue.push (cos.map (⟨·, s.nextCall⟩)) }).pros := rfl

@[simp] theorem pros_newObj (a : Addr) : (s.newObj p a).pros = s.pros := rfl

@[simp] theorem exec_goCoBatch (cos : List Addr) :
    ((s.goCoBatch p cos).pros q).exec = (s.pros q).exec := by
  rw [pros_goCoBatch, Sys.pros_setPro]
  split
  · next hq => rw [hq]
  · rfl

@[simp] theorem exec_wakeUpEpoller : ((s.wakeUpEpoller p).pros q).exec = (s.pros q).exec := by
  rw [Sys.wakeUpEpoller, Sys.pros_setPro]
  split
  · next hq => rw [hq]
  · rfl

@[simp] theorem exec_finishCall (call : ℕ) :
    ((s.finishCall p call).pros q).exec = (s.pros q).exec := exec_wakeUpEpoller s p q

end LoopStates

section Effects

variable {s : Sys} {p q : Pid} {act : Action} {L : LoopState} {es : List Event}

theorem eq_of_loop {r : Pid} (h : (Action.loop p).ofLoop r) : r = p := (of_decide_eq_true h).symm

theorem Effect.of_eq (hact : act.ofLoop q = false) (hL : L = (s.pros q).loopState)
    (hes : es.filter (·.inLoop q) = []) :
    Effect s.clock s.nextCall q (s.pros q) act L (es.filter (·.inLoop q)) := by
  rw [hL, hes]
  exact .stay hact

theorem Effect.of_push {cos : List Addr} (hact : act.ofLoop q = false)
    (hL : L = ((s.goCoBatch p cos).pros q).loopState)
    (hes : es.filter (·.inLoop q) = [Event.push p cos].filter (·.inLoop q)) :
    Effect s.clock s.nextCall q (s.pros q) act L (es.filter (·.inLoop q)) := by
  rw [hL, hes]
  by_cases hq : q = p
  · subst hq
    simp only [pros_goCoBatch, Sys.pros_setPro_self, Event.inLoop, decide_true,
      List.filter_cons_of_pos, List.filter_nil]
    exact .push cos hact
  · refine .of_eq hact ?_ (by simp [Event.inLoop, Ne.symm hq])
    rw [pros_goCoBatch, Sys.pros_setPro_of_ne _ _ _ hq]

theorem Effect.of_wakeUp (hact : act.ofLoop q = false)
    (hL : L = ((s.wakeUpEpoller p).pros q).loopState) :
    Effect s.clock s.nextCall q (s.pros q) act L [] := by
  rw [hL]
  by_cases hq : q = p
  · subst hq
    rw [Sys.wakeUpEpoller, Sys.pros_setPro_self, Processor.wokenTimer]
    split
    · exact .stay hact
    · next hpc => exact .wakeUp hact hpc
  · rw [Sys.wakeUpEpoller, Sys.pros_setPro_of_ne _ _ _ hq]
    exact .stay hact

/-- The effect of a step of `p` that replaces its own state, where the step does nothing to the
others. -/
theorem Effect.of_setPro {P : Processor} (hact : ∀ {r}, act.ofLoop r → r = p)
    (hes : ∀ r, r ≠ p → es.filter (·.inLoop r) = [])
    (h : q = p → Effect s.clock s.nextCall p (s.pros p) act P.loopState
      (es.filter (·.inLoop p))) :
    Effect s.clock s.nextCall q (s.pros q) act ((s.setPro p P).pros q).loopState
      (es.filter (·.inLoop q)) := by
  by_cases hq : q = p
  · subst hq
    rw [Sys.pros_setPro_self]
    exact h rfl
  · exact .of_eq (Bool.eq_false_iff.mpr fun hloop ↦ hq (hact hloop))
      (by rw [Sys.pros_setPro_of_ne _ _ _ hq]) (hes q hq)

/-- The effect of a step of the loop of `p` that prepares its state as `P` and then resumes a
coroutine. -/
theorem Effect.of_resumes {P : Processor} {s' : Sys} {pCo : Option Addr} (pre : List Event)
    (hres : Resumes (s.setPro p P) p pCo s' es)
    (hpre : ∀ r, r ≠ p → pre.filter (·.inLoop r) = [])
    (h : ∀ {es'}, ResumeEvents p pCo es' → Effect s.clock s.nextCall p (s.pros p) (.loop p)
      P.loopState (pre.filter (·.inLoop p) ++ es')) :
    Effect s.clock s.nextCall q (s.pros q) (.loop p) (s'.pros q).loopState
      ((pre ++ es).filter (·.inLoop q)) := by
  rw [hres.loopState]
  by_cases hq : q = p
  · subst hq
    rw [Sys.pros_setPro_self, List.filter_append]
    exact h hres.resumeEvents
  · refine .of_eq (Bool.eq_false_iff.mpr fun hloop ↦ hq (eq_of_loop hloop))
      (by rw [Sys.pros_setPro_of_ne _ _ _ hq]) ?_
    rw [List.filter_append, hpre q hq, hres.filter_inLoop_of_ne hq, List.append_nil]

end Effects

/-- **Every step has an effect**, on every loop. -/
theorem Step.effect {s s' : Sys} {act : Action} {es : List Event} (h : Step s act s' es)
    (q : Pid) : Effect s.clock s.nextCall q (s.pros q) act (s'.pros q).loopState
      (es.filter (·.inLoop q)) := by
  cases h with
  | @start p timeFd hexec hpc =>
    refine .of_setPro eq_of_loop (by simp) fun _ ↦ ?_
    have heff : Effect s.clock s.nextCall p (s.pros p) (.start p timeFd) _ _ := .start hexec hpc
    simpa only [Processor.loopState, Epoller.maxEvents_addEv, List.filter_nil] using heff
  | top hexec hpc => exact .of_setPro eq_of_loop (by simp) fun _ ↦ .top hexec hpc
  | epoll hexec hpc hrep => exact .of_setPro eq_of_loop (by simp) fun _ ↦ .epoll hexec hpc hrep
  | getExpired hexec hpc => exact .of_setPro eq_of_loop (by simp) fun _ ↦ .getExpired hexec hpc
  | readTimefd hexec hpc => exact .of_setPro eq_of_loop (by simp) fun _ ↦ .readTimefd hexec hpc
  | rearm hexec hpc => exact .of_setPro eq_of_loop (by simp) fun _ ↦ .rearm hexec hpc
  | timer hexec hpc ha hres =>
    exact .of_resumes [] hres (by simp) fun hes ↦ .timer hexec hpc ha hes
  | timersEnd hexec hpc hend =>
    exact .of_setPro eq_of_loop (by simp) fun _ ↦ .timersEnd hexec hpc hend
  | readQue hexec hpc => exact .of_setPro eq_of_loop (by simp) fun _ ↦ .readQue hexec hpc
  | drain hexec hpc hne => exact .of_setPro eq_of_loop (by simp) fun _ ↦ .drain hexec hpc hne
  | drainEnd hexec hpc hnil =>
    exact .of_setPro eq_of_loop (by simp) fun _ ↦ .drainEnd hexec hpc hnil
  | @pop p rq e rest s' es hexec hpc hcons hres =>
    refine .of_resumes [.pop p rq e.co] hres ?_ fun hes ↦ ?_
    · exact fun r hr ↦ by simp [Event.inLoop, hr.symm]
    · simp only [Event.inLoop, decide_true, List.filter_cons_of_pos, List.filter_nil]
      exact .pop hexec hpc hcons hes
  | flip hexec hpc =>
    refine .of_setPro eq_of_loop (fun r hr ↦ by simp [Event.inLoop, hr.symm]) fun _ ↦ ?_
    simp only [Event.inLoop, decide_true, List.filter_cons_of_pos, List.filter_nil]
    exact .flip hexec hpc
  | event hexec hpc hpCo hres =>
    exact .of_resumes [] hres (by simp) fun hes ↦ .event hexec hpc hpCo hes
  | eventsEnd hexec hpc hend =>
    exact .of_setPro eq_of_loop (by simp) fun _ ↦ .eventsEnd hexec hpc hend
  | reclaim hexec hpc ha hco =>
    exact .of_setPro eq_of_loop (fun r hr ↦ by simp [Event.inLoop]) fun _ ↦ .reclaim hexec hpc ha
  | reclaimEnd hexec hpc hend =>
    refine .of_setPro eq_of_loop (fun r hr ↦ by simp [Event.inLoop, hr.symm]) fun _ ↦ ?_
    simp only [Event.inLoop, decide_true, List.filter_cons_of_pos, List.filter_nil]
    exact .reclaimEnd hexec hpc hend
  -- the timer of the processor whose coroutine or kernel acts
  | runAfter hexec hcur => exact .of_setPro nofun (by simp) fun _ ↦ .runAfter hexec
  | arm hexec => exact .of_setPro nofun (by simp) fun _ ↦ .arm hexec
  | expire hexp => exact .of_setPro nofun (by simp) fun _ ↦ .expire hexp
  -- entries are pushed, by whichever thread
  | goCoBatch hexec | goCo hexec => exact .of_push rfl (loopState_setExec _ _ _ _) rfl
  | handOver hexec hcons hco =>
    exact .of_push rfl (loopState_setExec _ _ _ _) (by simp [Event.inLoop])
  | extGoCoBatch hidle | extGoCo hext => exact .of_push rfl rfl rfl
  | wake hexec | freeWake hexec => exact .of_wakeUp rfl (loopState_setExec _ _ _ _)
  | extWake hext | wakeUp => exact .of_wakeUp rfl rfl
  -- what a coroutine does elsewhere shows in no loop
  | waitEvent hexec =>
    exact .of_eq rfl (loopState_setPro _ _ _ (by simp [Processor.loopState])) rfl
  | removeEv hexec => exact .of_eq rfl (loopState_setPro _ _ _ rfl) rfl
  | ret hexec hcur hco => exact .of_eq rfl (loopState_setPro _ _ _ rfl) (by simp [Event.inLoop])
  | goNewCo hexec hfree => exact .of_eq rfl (loopState_setExec _ _ _ _) (by simp [Event.inLoop])
  | rlockPark hexec hfree hlock hcur | wlockPark hexec hfree hlock hcur =>
    exact .of_eq rfl (loopState_setExec _ _ _ _) (by simp [Event.inLoop])
  | sleep hexec hcur hco | yield hexec hcur hco | swap hexec hcur hco =>
    exact .of_eq rfl (loopState_setExec _ _ _ _) rfl
  | callRlock hexec | callWlock hexec => exact .of_eq rfl (loopState_setExec _ _ _ _) rfl
  | runlock hexec hco hheld hfree | wunlock hexec hco hheld hfree =>
    exact .of_eq rfl (loopState_setExec _ _ _ _) rfl
  | rlock hexec hfree hlock hco | wlock hexec hfree hlock hco =>
    exact .of_eq rfl (loopState_setExec _ _ _ _) rfl
  | freeLockEnd hexec hnil => exact .of_eq rfl (loopState_setExec _ _ _ _) rfl
  | extGoNewCo hidle hfree => exact .of_eq rfl rfl (by simp [Event.inLoop])
  | tick => exact .of_eq rfl rfl rfl

end Copnet
