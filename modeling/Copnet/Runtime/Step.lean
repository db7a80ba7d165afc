import Copnet.Foundation.Transition
import Copnet.Runtime.State

/-!
# The steps of the runtime

Each thread runs its code in steps that are atomic with respect to the other threads: what happens
under a lock is one step, and so is each access to a kernel object. An unlock that wakes waiters is
the exception; it takes a step for each hand-over while it holds `lock_`. The choices that are not
the program's own (what user code calls next, which block the pool hands out, what `epoll_wait`
reports, how the clock advances) are part of the action.

The thread of a processor starts with `Epoller::init` and `Timer::init`. They are one step, since
nobody else looks at the epoller; that they succeed is part of the action, and a thread that fails
in them never gets to its loop. Until then the other threads may push coroutines already.

A step that would follow a dangling pointer or pop an empty queue is not enabled; that this never
blocks the program is among the results.
-/

open Transition

namespace Copnet

/-! ## Events -/

/-- What a step reports. -/
inductive Event
  /-- `new_obj` has built coroutine number `serial` at `a`, for processor `q`. -/
  | made (a : Addr) (serial : ℕ) (q : Pid)
  /-- Pushed on the receiving queue of `q`, in this order. -/
  | push (q : Pid) (cos : List Addr)
  /-- Popped by the loop of `p` from its queue number `que`. -/
  | pop (p : Pid) (que : Bool) (a : Addr)
  /-- The loop of `p` has flipped its queues. -/
  | flip (p : Pid)
  /-- `Processor::resume` has been called. -/
  | resume (p : Pid) (pCo : Option Addr)
  /-- The thread of `p` has switched into the coroutine at `a`. -/
  | switchTo (p : Pid) (a : Addr)
  /-- Coroutine number `serial` at `a` has gone from `CO_READY` to `CO_RUNNING`. -/
  | enter (a : Addr) (serial : ℕ)
  /-- The function of coroutine number `serial` at `a` has returned. -/
  | ret (p : Pid) (a : Addr) (serial : ℕ)
  /-- The loop of `p` has erased `a` from `coSet_` and passed it to `delete_obj`. -/
  | delete (p : Pid) (a : Addr) (serial : ℕ)
  /-- A failed `rlock` or `wlock` has pushed `a` on `waitingCo_`. -/
  | park (m : MuId) (a : Addr)
  /-- `freeLock` has popped `a` from `waitingCo_` and pushed it on a queue of `q`. -/
  | handOver (m : MuId) (a : Addr) (q : Pid)
  /-- The loop of `p` is back at the top. -/
  | top (p : Pid)
deriving DecidableEq

namespace Sys

variable (s : Sys)

/-! ## Functions shared by several steps -/

/-- The critical section of `Processor::goCoBatch` on processor `q`. -/
def goCoBatch (q : Pid) (cos : List Addr) : Sys :=
  { s.setPro q { s.pros q with queue := (s.pros q).queue.push (cos.map (⟨·, s.nextCall⟩)) } with
    nextCall := s.nextCall + 1
    openCalls := s.nextCall :: s.openCalls }

/-- The critical section of `Processor::goCo` on processor `q`. -/
def goCo (q : Pid) (pCo : Addr) : Sys := s.goCoBatch q [pCo]

/-- `Processor::wakeUpEpoller` on processor `q`. -/
def wakeUpEpoller (q : Pid) : Sys :=
  s.setPro q { s.pros q with timer := (s.pros q).wokenTimer s.clock }

/-- The end of a `goCo` or `goCoBatch` call: the wake-up, and the return. -/
def finishCall (q : Pid) (call : ℕ) : Sys :=
  { s.wakeUpEpoller q with openCalls := s.openCalls.filter (· ≠ call) }

/-- The pool of `q` may hand out the block at `a`. -/
def MayAlloc (q : Pid) (a : Addr) : Prop :=
  s.cos a = none ∧ (s.pool a = none ∨ s.pool a = some q)

instance (q : Pid) (a : Addr) : Decidable (s.MayAlloc q a) := by
  unfold MayAlloc
  infer_instance

/-- `new_obj` in `Processor::goNewCo` on processor `q`, where the pool hands out `a`. -/
def newObj (q : Pid) (a : Addr) : Sys :=
  { s.setCo a (some ⟨q, .ready, (a, .user), s.nextSerial⟩) with
    pool := Function.update s.pool a (some q)
    nextSerial := s.nextSerial + 1 }

/-- `Coroutine::resume` on the object at `a`, on the thread of `p`. -/
def coResume (p : Pid) (a : Addr) : Option (Sys × List Event) :=
  match s.cos a with
  | none => none
  | some c =>
    match c.status with
    | .ready =>
      -- coWrapFunc starts the function of the current coroutine of pMyProcessor_
      match (s.pros c.pMyProcessor).pCurCoroutine with
      | none => none
      | some x =>
        let c := { c with status := .running, ctx := (x, .user) }
        some ((s.setCo a (some c)).setExec p (some (x, .run .user)),
          [.switchTo p a, .enter a c.serial])
    | .waiting =>
      some ((s.setCo a (some { c with status := .running })).setExec p
        (some (c.ctx.1, .run c.ctx.2)), [.switchTo p a])
    | _ => some (s, [])

/-- `Processor::resume` on processor `p`. -/
def resume (p : Pid) (pCo : Option Addr) : Option (Sys × List Event) :=
  match pCo with
  | none => some (s, [.resume p none])
  | some a =>
    if a ∈ (s.pros p).coSet then
      ((s.setCur p a).coResume p a).map fun r ↦ (r.1, .resume p (some a) :: r.2)
    else some (s, [.resume p (some a)])

/-- `pCurCoroutine_->yield()` on processor `p`. -/
def coYield (p : Pid) : Option Sys :=
  (s.pros p).pCurCoroutine.bind fun a ↦ (s.cos a).map fun c ↦
    s.setCo a (some { c with status := .waiting })

/-- `mainCtx_.swapToMe(pCurCoroutine_->getCtx())` on processor `p`, by the code of `x`, which will
go on at `k`. -/
def swapToMain (p : Pid) (x : Addr) (k : Point) : Option Sys :=
  (s.pros p).pCurCoroutine.bind fun a ↦ (s.cos a).map fun c ↦
    (s.setCo a (some { c with ctx := (x, k) })).setExec p none

/-! ## The loop of a processor -/

def setPc (p : Pid) (pc : LoopPc) : Sys := s.setPro p { s.pros p with pc := pc }

/-- `Epoller::init` and `Timer::init` on processor `p`, where `timerfd_create` gives the descriptor
`timeFd`. -/
def startStep (p : Pid) (timeFd : Fd) : Option (Sys × List Event) :=
  let P := s.pros p
  if P.pc = .start then
    some (s.setPro p { P with epoller := (P.epoller.addEv none timeFd true).1, pc := .top }, [])
  else none

/-- The next step of the loop of `p`, but for `epoll_wait`. -/
def loopStep (p : Pid) : Option (Sys × List Event) :=
  let P := s.pros p
  match P.pc with
  | .start => none
  | .top =>
    some (s.setPro p { P with actCoroutines := [], timerExpiredCo := [], pc := .epollWait }, [])
  | .epollWait => none
  | .getExpired =>
    some (s.setPro p { P with
      timerExpiredCo := P.timerExpiredCo ++ P.timer.expiredCo s.clock
      timer := P.timer.popExpired s.clock
      pc := .readTimefd }, [])
  | .readTimefd =>
    some (s.setPro p { P with timer := P.timer.readTimefd, pc := .rearm }, [])
  | .rearm =>
    some (s.setPro p { P with timer := P.timer.rearm s.clock, pc := .timers 0 }, [])
  | .timers i =>
    match P.timerExpiredCo[i]? with
    | some a => (s.setPc p (.timers (i + 1))).resume p (some a)
    | none => some (s.setPc p .readQue, [])
  | .readQue => some (s.setPc p (.drain P.queue.running), [])
  | .drain runningQue =>
    if P.queue.bufs runningQue = [] then some (s.setPc p (.flip runningQue), [])
    else some (s.setPc p (.pop runningQue), [])
  | .pop runningQue =>
    match P.queue.bufs runningQue with
    | [] => none
    | e :: _ =>
      ((s.setPro p { P with
          queue := P.queue.pop runningQue
          coSet := insert e.co P.coSet
          pc := .drain runningQue }).resume p (some e.co)).map
        fun r ↦ (r.1, .pop p runningQue e.co :: r.2)
  | .flip runningQue =>
    some (s.setPro p { P with queue := P.queue.flip runningQue, pc := .events 0 }, [.flip p])
  | .events i =>
    match P.actCoroutines[i]? with
    | some pCo => (s.setPc p (.events (i + 1))).resume p pCo
    | none => some (s.setPc p (.reclaim 0), [])
  | .reclaim i =>
    match P.removedCo[i]? with
    | some deadCo =>
      match s.cos deadCo with
      | none => none
      | some c =>
        some ((s.setPro p { P with coSet := P.coSet.erase deadCo, pc := .reclaim (i + 1) }).setCo
          deadCo none, [.delete p deadCo c.serial])
    | none => some (s.setPro p { P with removedCo := [], pc := .top }, [.top p])

/-- `epoll_wait` in `getActEvServ` returns, reporting the descriptors `fds`. -/
def epollStep (p : Pid) (fds : List Fd) : Option (Sys × List Event) :=
  let P := s.pros p
  if P.pc = .epollWait ∧ P.epoller.Reports fds then
    some (s.setPro p { P with
      actCoroutines := P.actCoroutines ++ P.epoller.active fds
      epoller := P.epoller.grow fds
      pc := .getExpired }, [])
  else none

/-! ## Coroutines -/

/-- What the function of a coroutine may do next. -/
inductive Op
  /-- `co_go` to processor `q`, where the pool hands out `a`. -/
  | goNewCo (q : Pid) (a : Addr)
  /-- A direct call of `goCoBatch` on processor `q`; with one coroutine, of `goCo`. -/
  | goCoBatch (q : Pid) (cos : List Addr)
  /-- `co_sleep(time)`. -/
  | sleep (time : ℤ)
  /-- `waitEvent(fd, ev)`, where `canPoll` tells whether the kernel can poll the descriptor. -/
  | waitEvent (fd : Fd) (canPoll : Bool)
  | rlock (m : MuId)
  | wlock (m : MuId)
  | runlock (m : MuId)
  | wunlock (m : MuId)
  /-- Return from the function. -/
  | ret
deriving DecidableEq

/-- The function of the coroutine `x`, executed by the thread of `p`, goes on with `op`. -/
def userStep (p : Pid) (x : Addr) : Op → Option (Sys × List Event)
  | .goNewCo q a =>
    if s.MayAlloc q a then
      some ((s.newObj q a).setExec p (some (x, .goCo q a)), [.made a s.nextSerial q])
    else none
  | .goCoBatch q cos =>
    some ((s.goCoBatch q cos).setExec p (some (x, .wake q s.nextCall)), [.push q cos])
  | .sleep time => (s.coYield p).map fun s ↦ (s.setExec p (some (x, .sleep time)), [])
  | .waitEvent fd canPoll =>
    let P := s.pros p
    let epoller := (P.epoller.addEv P.pCurCoroutine fd canPoll).1
    -- the result of addEv is dropped
    some (s.setPro p { P with epoller, exec := some (x, .yield (.removeEv fd)) }, [])
  | .rlock m => some (s.setExec p (some (x, .run (.rlock m))), [])
  | .wlock m => some (s.setExec p (some (x, .run (.wlock m))), [])
  | .runlock m =>
    match s.cos x with
    | none => none
    | some c =>
      if c.serial ∈ s.readers m ∧ ¬(s.mus m).locked then
        let μ := (s.mus m).runlock
        let code := if μ.locked then .freeLock m else .run .user
        some ({ (s.setMu m μ).setExec p (some (x, code)) with
          readers := Function.update s.readers m ((s.readers m).erase c.serial) }, [])
      else none
  | .wunlock m =>
    match s.cos x with
    | none => none
    | some c =>
      if c.serial ∈ s.writers m ∧ ¬(s.mus m).locked then
        some ({ (s.setMu m (s.mus m).wunlock).setExec p (some (x, .freeLock m)) with
          writers := Function.update s.writers m ((s.writers m).erase c.serial) }, [])
      else none
  | .ret =>
    -- coWrapFunc calls killCurCo and returns to uc_link
    match (s.pros p).pCurCoroutine, s.cos x with
    | some a, some c =>
      some (s.setPro p { s.pros p with
        removedCo := (s.pros p).removedCo ++ [a]
        exec := none }, [.ret p x c.serial])
    | _, _ => none

/-- The next step of the code of the coroutine `x`, executed by the thread of `p`, inside the
runtime. -/
def coStep (p : Pid) (x : Addr) : Code → Option (Sys × List Event)
  | .run .user => none
  | .run (.rlock m) =>
    if (s.mus m).locked then none
    else
      match (s.mus m).rlock, s.cos x, (s.pros p).pCurCoroutine with
      | some μ, some c, _ =>
        some ({ (s.setMu m μ).setExec p (some (x, .run .user)) with
          readers := Function.update s.readers m (c.serial :: s.readers m) }, [])
      | none, _, some a =>
        some ((s.setMu m ((s.mus m).park a)).setExec p (some (x, .yield (.rlock m))), [.park m a])
      | _, _, _ => none
  | .run (.wlock m) =>
    if (s.mus m).locked then none
    else
      match (s.mus m).wlock, s.cos x, (s.pros p).pCurCoroutine with
      | some μ, some c, _ =>
        some ({ (s.setMu m μ).setExec p (some (x, .run .user)) with
          writers := Function.update s.writers m (c.serial :: s.writers m) }, [])
      | none, _, some a =>
        some ((s.setMu m ((s.mus m).park a)).setExec p (some (x, .yield (.wlock m))), [.park m a])
      | _, _, _ => none
  | .run (.removeEv fd) =>
    let P := s.pros p
    some (s.setPro p { P with
      epoller := P.epoller.removeEv fd
      exec := some (x, .run .user) }, [])
  | .goCo q a =>
    some ((s.goCo q a).setExec p (some (x, .wake q s.nextCall)), [.push q [a]])
  | .wake q call => some ((s.finishCall q call).setExec p (some (x, .run .user)), [])
  | .freeLock m =>
    match (s.mus m).waitingCo with
    | [] =>
      some ((s.setMu m { s.mus m with locked := false }).setExec p (some (x, .run .user)), [])
    | wakeCo :: rest =>
      match s.cos wakeCo with
      | none => none
      | some c =>
        let q := c.pMyProcessor
        some (((s.setMu m { s.mus m with waitingCo := rest }).goCo q wakeCo).setExec p
          (some (x, .freeWake m q s.nextCall)), [.handOver m wakeCo q, .push q [wakeCo]])
  | .freeWake m q call => some ((s.finishCall q call).setExec p (some (x, .freeLock m)), [])
  | .yield k => (s.coYield p).map fun s ↦ (s.setExec p (some (x, .swap k)), [])
  | .sleep time =>
    match (s.pros p).pCurCoroutine with
    | none => none
    | some a =>
      let P := s.pros p
      let runTime := Timer.runTime s.clock time
      some (s.setPro p { P with
        timer := P.timer.push runTime a
        exec := some (x, .arm runTime) }, [])
  | .arm time =>
    let P := s.pros p
    some (s.setPro p { P with
      timer := P.timer.rearmFor s.clock time
      exec := some (x, .swap .user) }, [])
  | .swap k => (s.swapToMain p x k).map fun s ↦ (s, [])

/-! ## Threads outside the scheduler -/

/-- A thread outside the scheduler starts `op`. -/
def extCall (t : Tid) : Op → Option (Sys × List Event)
  | .goNewCo q a =>
    if s.exts t = .idle ∧ s.MayAlloc q a then
      some ((s.newObj q a).setExt t (.goCo q a), [.made a s.nextSerial q])
    else none
  | .goCoBatch q cos =>
    if s.exts t = .idle then
      some ((s.goCoBatch q cos).setExt t (.wake q s.nextCall), [.push q cos])
    else none
  | _ => none

/-- The next step of a thread outside the scheduler inside the runtime. -/
def extStep (t : Tid) : Option (Sys × List Event) :=
  match s.exts t with
  | .idle => none
  | .goCo q a => some ((s.goCo q a).setExt t (.wake q s.nextCall), [.push q [a]])
  | .wake q call => some ((s.finishCall q call).setExt t .idle, [])

end Sys

/-! ## The machine -/

inductive Action
  /-- The thread of `p` initialises its epoller and its timer, with the descriptor `timeFd`. -/
  | start (p : Pid) (timeFd : Fd)
  /-- The loop of `p` takes its next step. -/
  | loop (p : Pid)
  /-- `epoll_wait` returns to the loop of `p`. -/
  | epoll (p : Pid) (fds : List Fd)
  /-- The function of the coroutine on the thread of `p` goes on with `op`. -/
  | user (p : Pid) (op : Sys.Op)
  /-- The coroutine on the thread of `p` takes its next step inside the runtime. -/
  | co (p : Pid)
  /-- A thread outside the scheduler starts `op`. -/
  | extCall (t : Tid) (op : Sys.Op)
  /-- A thread outside the scheduler takes its next step inside the runtime. -/
  | ext (t : Tid)
  /-- Some thread calls `wakeUp` on the timer of `q`. -/
  | wakeUp (q : Pid)
  /-- The armed expiry of the timer of `q` comes due. -/
  | expire (q : Pid)
  /-- The clock advances. -/
  | tick (d : ℕ)
deriving DecidableEq

/-- It is a step of the loop of `q`. -/
def Action.ofLoop (q : Pid) : Action → Bool
  | .start p _ | .loop p | .epoll p _ => p = q
  | _ => false

def step (s : Sys) : Action → Option (Sys × List Event)
  | .start p timeFd => if (s.pros p).exec = none then s.startStep p timeFd else none
  | .loop p => if (s.pros p).exec = none then s.loopStep p else none
  | .epoll p fds => if (s.pros p).exec = none then s.epollStep p fds else none
  | .user p op =>
    match (s.pros p).exec with
    | some (x, .run .user) => s.userStep p x op
    | _ => none
  | .co p =>
    match (s.pros p).exec with
    | some (x, code) => s.coStep p x code
    | none => none
  | .extCall t op => s.extCall t op
  | .ext t => s.extStep t
  | .wakeUp q => some (s.wakeUpEpoller q, [])
  | .expire q =>
    ((s.pros q).timer.expire s.clock).map fun timer ↦ (s.setPro q { s.pros q with timer }, [])
  | .tick d => some ({ s with clock := s.clock + d }, [])

def machine : Machine Sys Action Event where
  init s := ∃ clock, s = .fresh clock
  step := step

/-- The discipline of the program itself: `goCo` is called for a new coroutine by `goNewCo` and for
a waiter by `freeLock`, and by nobody else. -/
def Disciplined (_ : Sys) : Action → Prop
  | .user _ (.goCoBatch _ _) => False
  | .extCall _ (.goCoBatch _ _) => False
  | _ => True

instance (s : Sys) (a : Action) : Decidable (Disciplined s a) := by
  unfold Disciplined
  split <;> infer_instance

/-- A thread outside the scheduler makes a coroutine at address `7` for processor `0`, whose loop
gets it to run in its second iteration. -/
def toUser : List Action :=
  [.start 0 0, .extCall 0 (.goNewCo 0 7), .ext 0, .ext 0, .loop 0, .epoll 0 []] ++
    List.replicate 10 (.loop 0) ++ [.epoll 0 []] ++ List.replicate 7 (.loop 0)

end Copnet
