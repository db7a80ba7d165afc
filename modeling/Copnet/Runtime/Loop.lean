import Copnet.Runtime.RunQueue
import Copnet.Timer.Coverage

/-!
# Where a loop stands

`ThreadEffect` lists what a step can do to where the thread of a processor stands, as `Effect` does
for what its loop works on. Two facts about single loops hold in every run, whoever calls what.
While a coroutine executes on the thread of a processor, the loop of that processor is in one of its
three calls of `resume`. And when the loop is about to collect events or expired entries, the list
they go to is empty.

With the first fact the timer of each processor, in any run of the whole system, goes through a run
of the machine for one timer, so what holds of that machine holds of every processor's timer.
-/

open Transition

namespace Copnet

/-- The loop is in one of its calls of `resume`. -/
def LoopPc.Resuming : LoopPc → Prop
  | .timers _ | .drain _ | .events _ => True
  | _ => False

/-! ## What a step does to one thread -/

/-- What a step that reports `es` can do to where the thread of processor `q` stands, and to its
list of the coroutines that have returned. -/
inductive ThreadEffect (q : Pid) (P P' : Processor) (es : List Event) : Prop
  /-- The thread stays in its loop, at the same place, or in the coroutine that it executes. -/
  | stay (hexec : P'.exec = none ↔ P.exec = none) (hpc : P'.pc = P.pc)
      (hrem : P'.removedCo = P.removedCo)
  /-- The coroutine that it executes is suspended. -/
  | suspend (hexec : P.exec ≠ none) (hexec' : P'.exec = none) (hpc : P'.pc = P.pc)
      (hrem : P'.removedCo = P.removedCo)
  /-- The function of the coroutine that it executes returns. -/
  | ret {a : Addr} (hexec : P.exec ≠ none) (hcur : P.pCurCoroutine = some a)
      (hexec' : P'.exec = none) (hpc : P'.pc = P.pc) (hrem : P'.removedCo = P.removedCo ++ [a])
  /-- It gets to its loop. -/
  | init (hexec : P.exec = none) (hexec' : P'.exec = none) (hpc : P.pc = .start)
      (hpc' : P'.pc = .top) (hrem : P'.removedCo = P.removedCo)
  /-- The loop goes on, also within its list of those that have returned. -/
  | loop (hexec : P.exec = none) (hexec' : P'.exec = none) (hpc : P'.pc ≠ .start ∧ P'.pc ≠ .top)
      (hindex : ∀ i, P'.pc = .reclaim i → i ≤ P.removedCo.length)
      (hrem : P'.removedCo = P.removedCo)
  /-- The loop calls `resume`, and may switch into a coroutine. -/
  | resume (hexec : P.exec = none) (hexec' : P'.exec = none ∨ ∃ a, .switchTo q a ∈ es)
      (hpc : P'.pc.Resuming) (hrem : P'.removedCo = P.removedCo)
  /-- The loop gets back to the top. -/
  | top (hexec : P.exec = none) (hexec' : P'.exec = none) (hpc : P'.pc = .top)
      (hrem : P'.removedCo = [])

def Processor.SameThread (P P' : Processor) : Prop :=
  P'.exec = P.exec ∧ P'.pc = P.pc ∧ P'.removedCo = P.removedCo

section Threads

variable {s s' : Sys} {p q : Pid} {act : Action} {es : List Event}

theorem sameThread_setPro {P : Processor} (h : (s.pros p).SameThread P) (q : Pid) :
    (s.pros q).SameThread ((s.setPro p P).pros q) := by
  rw [Sys.pros_setPro]
  split
  · next hq => rwa [hq]
  · exact ⟨rfl, rfl, rfl⟩

theorem sameThread_goCoBatch (s : Sys) (p : Pid) (cos : List Addr) (q : Pid) :
    (s.pros q).SameThread ((s.goCoBatch p cos).pros q) := by
  rw [pros_goCoBatch]
  refine sameThread_setPro ?_ q
  exact ⟨rfl, rfl, rfl⟩

theorem sameThread_wakeUpEpoller (s : Sys) (p q : Pid) :
    (s.pros q).SameThread ((s.wakeUpEpoller p).pros q) := by
  refine sameThread_setPro ?_ q
  exact ⟨rfl, rfl, rfl⟩

theorem ThreadEffect.of_same {P P' : Processor} (h : P.SameThread P') :
    ThreadEffect q P P' es := .stay (by rw [h.1]) h.2.1 h.2.2

theorem ThreadEffect.of_setPro {P : Processor} (h : ThreadEffect p (s.pros p) P es) :
    ThreadEffect q (s.pros q) ((s.setPro p P).pros q) es := by
  by_cases hq : q = p
  · subst hq
    rw [Sys.pros_setPro_self]
    exact h
  · rw [Sys.pros_setPro_of_ne _ _ _ hq]
    exact .of_same ⟨rfl, rfl, rfl⟩

theorem ThreadEffect.of_setExec {u : Sys} {x y : Addr} {code code' : Code}
    (hexec : (s.pros p).exec = some (x, code)) (hu : ∀ r, (s.pros r).SameThread (u.pros r)) :
    ThreadEffect q (s.pros q) ((u.setExec p (some (y, code'))).pros q) es := by
  by_cases hq : q = p
  · subst hq
    rw [Sys.pros_setExec_self]
    exact .stay (by simp [hexec]) (hu q).2.1 (hu q).2.2
  · rw [Sys.pros_setExec_of_ne _ _ _ hq]
    exact .of_same (hu q)

theorem ThreadEffect.of_resumes {P : Processor} {pCo : Option Addr} (pre : List Event)
    (hres : Resumes (s.setPro p P) p pCo s' es) (hexec : (s.pros p).exec = none)
    (hP : P.exec = none) (hpc : P.pc.Resuming) (hrem : P.removedCo = (s.pros p).removedCo) :
    ThreadEffect q (s.pros q) (s'.pros q) (pre ++ es) := by
  by_cases hq : q = p
  · subst hq
    cases hres with
    | null | unknown _ =>
      rw [Sys.pros_setPro_self]
      exact .resume hexec (.inl hP) hpc hrem
    | drop _ _ _ _ =>
      simp only [Sys.setCur, Sys.pros_setPro_self]
      exact .resume hexec (.inl hP) hpc hrem
    | @start a _ _ _ _ _ _ | @goOn a _ _ _ _ =>
      simp only [Sys.setCur, Sys.setExec, Sys.pros_setPro_self, Sys.pros_setCo]
      exact .resume hexec (.inr ⟨a, by simp⟩) hpc hrem
  · rw [hres.pros_of_ne hq, Sys.pros_setPro_of_ne _ _ _ hq]
    exact .of_same ⟨rfl, rfl, rfl⟩

end Threads

/-- **Every step has an effect** on every thread. -/
theorem Step.threadEffect {s s' : Sys} {act : Action} {es : List Event} (h : Step s act s' es)
    (q : Pid) : ThreadEffect q (s.pros q) (s'.pros q) es := by
  have hsame : ∀ r, (s.pros r).SameThread (s.pros r) := fun r ↦ ⟨rfl, rfl, rfl⟩
  cases h with
  | timer hexec hpc ha hres | event hexec hpc hpCo hres =>
    exact .of_resumes [] hres hexec hexec trivial rfl
  | @pop p rq e rest s' es hexec hpc hcons hres =>
    exact .of_resumes [.pop p rq e.co] hres hexec hexec trivial rfl
  | reclaim hexec hpc ha hco =>
    obtain ⟨hlt, -⟩ := List.getElem?_eq_some_iff.mp ha
    exact .of_setPro (.loop hexec hexec ⟨nofun, nofun⟩ (fun j hj ↦ by cases hj; exact hlt) rfl)
  | eventsEnd hexec hpc hend =>
    exact .of_setPro (.loop hexec hexec ⟨nofun, nofun⟩
      (fun j hj ↦ by cases hj; exact Nat.zero_le _) rfl)
  | reclaimEnd hexec hpc hend => exact .of_setPro (.top hexec hexec rfl rfl)
  | start hexec hpc => exact .of_setPro (.init hexec hexec hpc rfl rfl)
  | top hexec _ | epoll hexec _ _ | getExpired hexec _ | readTimefd hexec _ | rearm hexec _
  | timersEnd hexec _ _ | readQue hexec _ | drain hexec _ _ | drainEnd hexec _ _ | flip hexec _ =>
    exact .of_setPro (.loop hexec hexec ⟨nofun, nofun⟩ nofun rfl)
  | ret hexec hcur hco => exact .of_setPro (.ret (by simp [hexec]) hcur rfl rfl rfl)
  | swap hexec hcur hco => exact .of_setPro (.suspend (by simp [hexec]) rfl rfl rfl)
  | goCoBatch hexec | goCo hexec => exact .of_setExec hexec (sameThread_goCoBatch s _ _)
  | handOver hexec hcons hco => exact .of_setExec hexec (sameThread_goCoBatch s _ _)
  | wake hexec | freeWake hexec => exact .of_setExec hexec (sameThread_wakeUpEpoller s _)
  | goNewCo hexec _ | sleep hexec _ _ | callRlock hexec | callWlock hexec | rlockPark hexec _ _ _
  | wlockPark hexec _ _ _ | freeLockEnd hexec _ | yield hexec _ _ | runlock hexec _ _ _
  | wunlock hexec _ _ _ | rlock hexec _ _ _ | wlock hexec _ _ _ => exact .of_setExec hexec hsame
  | waitEvent hexec | removeEv hexec | runAfter hexec _ | arm hexec =>
    exact .of_setPro (.stay (by simp [hexec]) rfl rfl)
  | extGoCoBatch _ | extGoCo _ => exact .of_same (sameThread_goCoBatch s _ _ q)
  | extWake _ | wakeUp => exact .of_same (sameThread_wakeUpEpoller s _ q)
  | expire _ => exact .of_setPro (.stay Iff.rfl rfl rfl)
  | tick | extGoNewCo _ _ => exact .of_same (hsame q)

/-- While a coroutine executes, the loop is in a call of `resume`. -/
def Processor.Paced (P : Processor) : Prop := P.exec ≠ none → P.pc.Resuming

theorem Processor.paced_of_none {P : Processor} (h : P.exec = none) : P.Paced :=
  fun hne ↦ absurd h hne

theorem ThreadEffect.paced {q : Pid} {P P' : Processor} {es : List Event}
    (h : ThreadEffect q P P' es) (hP : P.Paced) : P'.Paced := by
  intro hne
  cases h with
  | stay hexec hpc hrem =>
    rw [hpc]
    exact hP fun hnone ↦ hne (hexec.mpr hnone)
  | resume hexec hexec' hpc hrem => exact hpc
  | suspend _ hexec' | ret _ _ hexec' | init _ hexec' | loop _ hexec' | top _ hexec' =>
    exact absurd hexec' hne

theorem Step.paced {s s' : Sys} {act : Action} {es : List Event} (hs : Step s act s' es)
    (h : ∀ q, (s.pros q).Paced) (q : Pid) : (s'.pros q).Paced := (hs.threadEffect q).paced (h q)

/-! ## Lists about to be filled -/

/-- The lists are empty when they are about to be filled. -/
def LoopState.Cleared (L : LoopState) : Prop :=
  match L.pc with
  | .epollWait => L.actCoroutines = [] ∧ L.timerExpiredCo = []
  | .getExpired => L.timerExpiredCo = []
  | _ => True

theorem Effect.cleared {clock : ℤ} {call : ℕ} {q : Pid} {P : Processor} {act : Action}
    {L : LoopState} {es : List Event} (h : Effect clock call q P act L es)
    (hP : P.loopState.Cleared) : L.Cleared := by
  cases h with
  | stay | push _ | wakeUp | runAfter _ | arm _ | expire _ => exact hP
  | top hexec hpc => exact ⟨rfl, rfl⟩
  | epoll hexec hpc =>
    simp only [LoopState.Cleared, Processor.loopState, hpc] at hP
    exact hP.2
  | _ => trivial

/-! ## The timer of a processor -/

/-- The deadline with which `runAt` is about to re-arm. -/
def Code.armTime? : Code → Option ℤ
  | .arm time => some time
  | _ => none

/-- Where a loop stands in the functions of its timer. -/
def LoopPc.timerPc : LoopPc → TimerPc
  | .readTimefd => .read
  | .rearm => .rearm
  | _ => .idle

/-- Where the thread of a processor stands in the functions of its timer. -/
def Processor.timerPc (P : Processor) : TimerPc :=
  match P.exec.bind fun e ↦ e.2.armTime? with
  | some time => .arm time
  | none => P.pc.timerPc

/-- The timer of `q`, as a state of the machine for one timer. -/
def Sys.timerState (s : Sys) (q : Pid) : TimerState :=
  ⟨(s.pros q).timer, s.clock, (s.pros q).timerPc⟩

theorem LoopPc.timerPc_of_resuming {pc : LoopPc} (h : pc.Resuming) : pc.timerPc = .idle := by
  cases pc <;> first | rfl | exact h.elim

theorem Processor.timerPc_of_none {P : Processor} (h : P.exec = none) :
    P.timerPc = P.pc.timerPc := by
  simp only [Processor.timerPc, h, Option.bind_none]

theorem Processor.timerPc_of_code {P : Processor} {x : Addr} {code : Code}
    (h : P.exec = some (x, code)) (hcode : code.armTime? = none) (hpc : P.pc.Resuming) :
    P.timerPc = .idle := by
  simp only [Processor.timerPc, h, Option.bind_some, hcode]
  exact LoopPc.timerPc_of_resuming hpc

theorem Processor.timerPc_of_arm {P : Processor} {x : Addr} {time : ℤ}
    (h : P.exec = some (x, .arm time)) : P.timerPc = .arm time := by
  simp only [Processor.timerPc, h, Option.bind_some, Code.armTime?]

/-- The timer of `q` stays as it is, or takes one step of the machine for one timer. -/
def TimerMoves (s s' : Sys) (q : Pid) : Prop :=
  s'.timerState q = s.timerState q ∨
    ∃ a out, timerStep (s.timerState q) a = some (s'.timerState q, out)

section TimerSteps

variable {s s' : Sys} {p q : Pid}

theorem TimerMoves.of_setPro {P : Processor} (hpros : s'.pros = (s.setPro p P).pros)
    (hclock : s'.clock = s.clock)
    (h : (P.timer = (s.pros p).timer ∧ P.timerPc = (s.pros p).timerPc) ∨
      ∃ a out pc, P.timerPc = pc ∧
        timerStep (s.timerState p) a = some (⟨P.timer, s.clock, pc⟩, out)) :
    TimerMoves s s' q := by
  by_cases hq : q = p
  · subst hq
    have hstate : s'.timerState q = ⟨P.timer, s.clock, P.timerPc⟩ := by
      rw [Sys.timerState, hpros, Sys.pros_setPro_self, hclock]
    rcases h with ⟨htimer, hpc⟩ | ⟨a, out, pc, rfl, hstep⟩
    · exact .inl (by rw [hstate, htimer, hpc]; rfl)
    · exact .inr ⟨a, out, by rw [hstate, hstep]⟩
  · left
    rw [Sys.timerState, hpros, Sys.pros_setPro_of_ne _ _ _ hq, hclock]
    rfl

/-- No thread moves, and no timer changes but by a wake-up. -/
def KeepsTimers (s u : Sys) : Prop :=
  ∀ r, ((u.pros r).timer = (s.pros r).timer ∨
      (u.pros r).timer = (s.pros r).timer.wakeUp s.clock) ∧
    (u.pros r).pc = (s.pros r).pc ∧ (u.pros r).exec = (s.pros r).exec

theorem keepsTimers_of_eq {u : Sys} (h : u.pros = s.pros) : KeepsTimers s u :=
  fun r ↦ by rw [h]; exact ⟨.inl rfl, rfl, rfl⟩

theorem keepsTimers_goCoBatch (s : Sys) (q : Pid) (cos : List Addr) :
    KeepsTimers s (s.goCoBatch q cos) := by
  intro r
  rw [pros_goCoBatch, Sys.pros_setPro]
  split
  · next hr => rw [hr]; exact ⟨.inl rfl, rfl, rfl⟩
  · exact ⟨.inl rfl, rfl, rfl⟩

theorem keepsTimers_wakeUpEpoller (s : Sys) (q : Pid) : KeepsTimers s (s.wakeUpEpoller q) := by
  intro r
  rw [Sys.wakeUpEpoller, Sys.pros_setPro]
  split
  · next hr => rw [hr]; exact ⟨(s.pros q).wokenTimer_eq s.clock, rfl, rfl⟩
  · exact ⟨.inl rfl, rfl, rfl⟩

theorem TimerMoves.of_timer (htimer : (s'.pros q).timer = (s.pros q).timer ∨
      (s'.pros q).timer = (s.pros q).timer.wakeUp s.clock)
    (hpc : (s'.pros q).timerPc = (s.pros q).timerPc) (hclock : s'.clock = s.clock) :
    TimerMoves s s' q := by
  rcases htimer with htimer | htimer
  · exact .inl (by rw [Sys.timerState, htimer, hpc, hclock]; rfl)
  · exact .inr ⟨.wakeUp, [], by rw [Sys.timerState, Sys.timerState, htimer, hpc, hclock]; rfl⟩

theorem TimerMoves.of_keeps (h : KeepsTimers s s') (hclock : s'.clock = s.clock) :
    TimerMoves s s' q := by
  obtain ⟨htimer, hpc, hexec⟩ := h q
  exact .of_timer htimer (by rw [Processor.timerPc, Processor.timerPc, hexec, hpc]) hclock

theorem TimerMoves.of_setExec {x y : Addr} {code code' : Code} {u : Sys}
    (hexec : (s.pros p).exec = some (x, code)) (hpaced : (s.pros p).Paced)
    (hcode : code.armTime? = none) (hcode' : code'.armTime? = none) (hu : KeepsTimers s u)
    (hpros : s'.pros = (u.setExec p (some (y, code'))).pros) (hclock : s'.clock = s.clock) :
    TimerMoves s s' q := by
  have hres : (s.pros p).pc.Resuming := hpaced (by simp [hexec])
  obtain ⟨htimer, hpc, hexecq⟩ := hu q
  have htimer' : (s'.pros q).timer = (u.pros q).timer := by
    rw [hpros]
    exact congrArg LoopState.timer (loopState_setExec u p q _)
  refine .of_timer (by rwa [htimer']) ?_ hclock
  rw [hpros]
  by_cases hq : q = p
  · subst hq
    rw [Sys.pros_setExec_self, Processor.timerPc_of_code hexec hcode hres]
    exact Processor.timerPc_of_code rfl hcode' (hpc ▸ hres)
  · rw [Sys.pros_setExec_of_ne _ _ _ hq, Processor.timerPc, Processor.timerPc, hexecq, hpc]

theorem TimerMoves.of_resumes {P : Processor} {pCo : Option Addr} {es : List Event}
    (hres : Resumes (s.setPro p P) p pCo s' es) (htimer : P.timer = (s.pros p).timer)
    (hpc : P.pc.Resuming) (hexec : P.exec = none) (hidle : (s.pros p).timerPc = .idle) :
    TimerMoves s s' q := by
  refine .of_timer (.inl ?_) ?_ hres.frame.2.2.1
  · have hstate := congrArg LoopState.timer (hres.loopState q)
    by_cases hq : q = p
    · subst hq
      rw [Sys.pros_setPro_self] at hstate
      exact hstate.trans htimer
    · rw [Sys.pros_setPro_of_ne _ _ _ hq] at hstate
      exact hstate
  · by_cases hq : q = p
    · subst hq
      obtain ⟨cur, exec, hself, hexec'⟩ := hres.pros_self
      rw [Sys.pros_setPro_self] at hself hexec'
      rw [hself, hidle]
      rcases hexec' with rfl | ⟨x, k, rfl⟩
      · exact (Processor.timerPc_of_none hexec).trans (LoopPc.timerPc_of_resuming hpc)
      · exact Processor.timerPc_of_code rfl rfl hpc
    · rw [hres.pros_of_ne hq, Sys.pros_setPro_of_ne _ _ _ hq]

theorem Step.timerMoves {act : Action} {es : List Event} (h : Step s act s' es)
    (hpaced : ∀ r, (s.pros r).Paced) (q : Pid) : TimerMoves s s' q := by
  cases h with
  | tick => exact .inr ⟨.tick _, [], rfl⟩
  | timer hexec hpc ha hres | event hexec hpc hpCo hres =>
    exact .of_resumes hres rfl trivial hexec (by
      rw [Processor.timerPc_of_none hexec, hpc]
      rfl)
  | pop hexec hpc hcons hres =>
    exact .of_resumes hres rfl trivial hexec (by
      rw [Processor.timerPc_of_none hexec, hpc]
      rfl)
  -- the loop is in `getExpiredCoroutines`
  | @getExpired p hexec hpc =>
    refine .of_setPro rfl rfl (.inr ⟨.getExpired, (s.pros p).timer.expiredCo s.clock, .read,
      Processor.timerPc_of_none hexec, ?_⟩)
    rw [Sys.timerState, Processor.timerPc_of_none hexec, hpc]
    rfl
  | @readTimefd p hexec hpc =>
    refine .of_setPro rfl rfl (.inr ⟨.read, [], .rearm, Processor.timerPc_of_none hexec, ?_⟩)
    rw [Sys.timerState, Processor.timerPc_of_none hexec, hpc]
    rfl
  | @rearm p hexec hpc =>
    refine .of_setPro rfl rfl (.inr ⟨.rearm, [], .idle, Processor.timerPc_of_none hexec, ?_⟩)
    rw [Sys.timerState, Processor.timerPc_of_none hexec, hpc]
    rfl
  -- a coroutine is in `runAfter`, so the loop is in a resume and not at its timer
  | @runAfter p x a time hexec hcur =>
    refine .of_setPro rfl rfl (.inr ⟨.runAfter time a, [], _, Processor.timerPc_of_arm rfl, ?_⟩)
    rw [Sys.timerState, Processor.timerPc_of_code hexec rfl (hpaced p (by simp [hexec]))]
    rfl
  | @arm p x time hexec =>
    have hres : (s.pros p).pc.Resuming := hpaced p (by simp [hexec])
    refine .of_setPro rfl rfl (.inr ⟨.arm, [], _, Processor.timerPc_of_code rfl rfl hres, ?_⟩)
    rw [Sys.timerState, Processor.timerPc_of_arm hexec]
    rfl
  | @expire p timer hexp =>
    refine .of_setPro rfl rfl (.inr ⟨.expire, [], _, rfl, ?_⟩)
    exact Option.map_eq_some_iff.mpr ⟨timer, hexp, rfl⟩
  | @swap p x a k c hexec hcur hco | @ret p x a c hexec hcur hco =>
    have hres : (s.pros p).pc.Resuming := hpaced p (by simp [hexec])
    refine .of_setPro rfl rfl (.inl ⟨rfl, ?_⟩)
    rw [Processor.timerPc_of_code hexec rfl hres]
    exact LoopPc.timerPc_of_resuming hres
  -- other threads only wake the timer up
  | wakeUp => exact .of_keeps (keepsTimers_wakeUpEpoller s _) rfl
  | extWake _ => exact .of_keeps (keepsTimers_wakeUpEpoller s _) rfl
  | extGoCoBatch _ | extGoCo _ => exact .of_keeps (keepsTimers_goCoBatch s _ _) rfl
  | extGoNewCo _ _ => exact .of_keeps (keepsTimers_of_eq rfl) rfl
  | goCoBatch hexec | goCo hexec =>
    exact .of_setExec hexec (hpaced _) rfl rfl (keepsTimers_goCoBatch s _ _) rfl rfl
  | handOver hexec hcons hco =>
    exact .of_setExec hexec (hpaced _) rfl rfl (keepsTimers_goCoBatch s _ _) rfl rfl
  | wake hexec | freeWake hexec =>
    exact .of_setExec hexec (hpaced _) rfl rfl (keepsTimers_wakeUpEpoller s _) rfl rfl
  | goNewCo hexec _ | sleep hexec _ _ | callRlock hexec | callWlock hexec | wunlock hexec _ _ _
  | rlock hexec _ _ _ | rlockPark hexec _ _ _ | wlock hexec _ _ _ | wlockPark hexec _ _ _
  | freeLockEnd hexec _ | yield hexec _ _ =>
    exact .of_setExec hexec (hpaced _) rfl rfl (keepsTimers_of_eq rfl) rfl rfl
  | runlock hexec hco hheld hfree =>
    exact .of_setExec hexec (hpaced _) rfl (by split <;> rfl) (keepsTimers_of_eq rfl) rfl rfl
  | @waitEvent p x fd canPoll hexec | @removeEv p x fd hexec =>
    have hres : (s.pros p).pc.Resuming := hpaced p (by simp [hexec])
    refine .of_setPro rfl rfl (.inl ⟨rfl, ?_⟩)
    rw [Processor.timerPc_of_code hexec rfl hres]
    exact Processor.timerPc_of_code rfl rfl hres
  -- the loop moves between places that are one place to the timer
  | start hexec hpc | top hexec hpc | epoll hexec hpc _ | timersEnd hexec hpc _ | drain hexec hpc _
  | drainEnd hexec hpc _ | flip hexec hpc | eventsEnd hexec hpc _ | readQue hexec hpc
  | reclaim hexec hpc _ _ | reclaimEnd hexec hpc _ =>
    refine .of_setPro rfl rfl (.inl ⟨rfl, ?_⟩)
    rw [Processor.timerPc_of_none (P := s.pros _) hexec, hpc]
    exact Processor.timerPc_of_none hexec

end TimerSteps

/-- **Every processor's timer is a timer.** In every run of the system, what happens to the timer of
a processor is a run of the machine for one timer. -/
theorem timer_reachable {s : Sys} (h : Reachable machine Always s) (q : Pid) :
    Reachable timerMachine Always (s.timerState q) := by
  refine (h.invariant (P := fun s ↦ (∀ r, (s.pros r).Paced) ∧
    Reachable timerMachine Always (s.timerState q)) ?_ ?_).2
  · rintro s ⟨clock, rfl⟩
    exact ⟨fun r ↦ Processor.paced_of_none rfl, .of_init ⟨rfl, rfl⟩⟩
  · rintro s s' act es ⟨hpaced, hreach⟩ - hstep
    have hs := Step.of_step hstep
    refine ⟨hs.paced hpaced, ?_⟩
    rcases hs.timerMoves hpaced q with heq | ⟨a, out, hmove⟩
    · rwa [heq]
    · exact hreach.step trivial hmove

end Copnet
