import Copnet.Foundation.DoubleBuffer
import Copnet.Timer.Timer
import Mathlib.Data.Finset.Basic

/-!
# The state of the runtime

All processors, coroutines and read-write locks of a program, with the parts of the kernel they
talk to. A thread is always in one of two places: in the loop of its processor, at a `LoopPc`, or in
a coroutine, at a `Code`. The stack of a suspended coroutine is what `swapcontext` saved of it,
namely whose code it is and at which `Point` it goes on.

Pointers to coroutines are addresses, and the object at an address is looked up in `Sys.cos`; an
address can come to hold a new object after `delete_obj` has freed the old one. A block of memory
belongs for good to the pool of the processor that has first handed it out; `new_obj` may hand out
any free block of its own, or a new one.

A few fields record history that the program itself does not store: the serial number of a
coroutine, the `goCo` call behind a queue entry, and who holds a lock. No step depends on them,
except that a coroutine unlocks only what it holds.
-/

namespace Copnet

/-- The index of a `Processor` in `processors_`, which is its `tid_`. -/
abbrev Pid := ℕ

abbrev Fd := ℕ

/-- The address of an `RWMutex`. -/
abbrev MuId := ℕ

/-- A thread outside the scheduler, such as the main thread. -/
abbrev Tid := ℕ

/-! ## Coroutines -/

inductive CoStatus
  | ready | running | waiting | dead
deriving DecidableEq

/-- A point at which the code of a coroutine goes on after a suspension. -/
inductive Point
  /-- In its function, or at the start of it. -/
  | user
  /-- At the call of `rlock` that ends a failed `rlock`. -/
  | rlock (m : MuId)
  /-- At the call of `wlock` that ends a failed `wlock`. -/
  | wlock (m : MuId)
  /-- In `Processor::waitEvent`, at the call of `removeEv`. -/
  | removeEv (fd : Fd)
deriving DecidableEq

/-- Where the code of a coroutine stands while it executes. -/
inductive Code
  /-- At a point. -/
  | run (k : Point)
  /-- In `goNewCo`: the object has been built, `goCo` is next. -/
  | goCo (q : Pid) (a : Addr)
  /-- In `goCo` or `goCoBatch`: `wakeUpEpoller` is next. -/
  | wake (q : Pid) (call : ℕ)
  /-- In `freeLock`, before a test of `waitingCo_`. -/
  | freeLock (m : MuId)
  /-- In `freeLock`, in a `goCo`: `wakeUpEpoller` is next. -/
  | freeWake (m : MuId) (q : Pid) (call : ℕ)
  /-- At a call of `Processor::yield`, to go on at `k` afterwards. -/
  | yield (k : Point)
  /-- In `Processor::wait`, after `Coroutine::yield`: `runAfter` is next. -/
  | sleep (time : ℤ)
  /-- In `Timer::runAt`, after the push. -/
  | arm (time : ℤ)
  /-- In `Processor::yield` or `wait`: `swapToMe` is next, to go on at `k` afterwards. -/
  | swap (k : Point)
deriving DecidableEq

structure Coroutine where
  /-- `pMyProcessor_`. -/
  pMyProcessor : Pid
  /-- `status_`. -/
  status : CoStatus
  /-- `ctx_`: whose code is suspended in it, and where that goes on. -/
  ctx : Addr × Point
  /-- The number of the `goNewCo` call that built the object. -/
  serial : ℕ
deriving DecidableEq

/-! ## Processors -/

inductive LoopPc
  /-- Before `Epoller::init` and `Timer::init`, also while the thread has not been created. -/
  | start
  /-- At the top, before the lists are cleared. -/
  | top
  /-- At `getActEvServ`. -/
  | epollWait
  /-- At `getExpiredCoroutines`. -/
  | getExpired
  /-- In `getExpiredCoroutines`, at the read. -/
  | readTimefd
  /-- In `getExpiredCoroutines`, at the re-arming. -/
  | rearm
  /-- In the loop over `timerExpiredCo_`, at index `i`. -/
  | timers (i : ℕ)
  /-- At the read of `runningNewQue_`. -/
  | readQue
  /-- At the emptiness test of the queue `runningQue`. -/
  | drain (runningQue : Bool)
  /-- At the pop from the queue `runningQue`. -/
  | pop (runningQue : Bool)
  /-- At the flip. -/
  | flip (runningQue : Bool)
  /-- In the loop over `actCoroutines_`, at index `i`. -/
  | events (i : ℕ)
  /-- In the loop over `removedCo_`, at index `i`. -/
  | reclaim (i : ℕ)
deriving DecidableEq

/-- An entry of `newCoroutines_`: the coroutine, and the number of the call that pushed it. -/
structure Entry where
  /-- The pointer in the queue. -/
  co : Addr
  /-- The `goCo` or `goCoBatch` call. -/
  call : ℕ
deriving DecidableEq

/-- An `Epoller`, with the interest list that the kernel keeps for it. -/
structure Epoller where
  /-- The registered descriptors, with the `data.ptr` given for them. -/
  registered : Fd → Option (Option Addr)
  /-- The size of `activeEpollEvents_`. -/
  maxEvents : ℕ

namespace Epoller

/-- `addEv` for the coroutine `pCo`, where `canPoll` tells whether the kernel can poll the
descriptor. `EPOLL_CTL_ADD` fails on a descriptor that is registered already. -/
def addEv (e : Epoller) (pCo : Option Addr) (fd : Fd) (canPoll : Bool) : Epoller × Bool :=
  if (e.registered fd).isNone ∧ canPoll then
    ({ e with registered := Function.update e.registered fd (some pCo) }, true)
  else (e, false)

def removeEv (e : Epoller) (fd : Fd) : Epoller :=
  { e with registered := Function.update e.registered fd none }

/-- What the kernel may report: registered descriptors, each once and no more than fit. -/
def Reports (e : Epoller) (fds : List Fd) : Prop :=
  fds.Nodup ∧ fds.length ≤ e.maxEvents ∧ ∀ fd ∈ fds, (e.registered fd).isSome

instance (e : Epoller) (fds : List Fd) : Decidable (e.Reports fds) := by
  unfold Reports
  infer_instance

/-- The `data.ptr` of the reported descriptors. -/
def active (e : Epoller) (fds : List Fd) : List (Option Addr) :=
  fds.filterMap e.registered

/-- `getActEvServ` doubles an event array that was filled. -/
def grow (e : Epoller) (fds : List Fd) : Epoller :=
  if fds.length = e.maxEvents then { e with maxEvents := e.maxEvents * 2 } else e

@[simp] theorem registered_grow (e : Epoller) (fds : List Fd) :
    (e.grow fds).registered = e.registered := by
  unfold grow
  split <;> rfl

@[simp] theorem registered_addEv_none (e : Epoller) (fd fd' : Fd) (a : Addr) :
    (e.addEv none fd true).1.registered fd' = some (some a) ↔
      e.registered fd' = some (some a) := by
  unfold addEv
  split
  · next hfree =>
    rcases eq_or_ne fd' fd with rfl | hfd
    · simp [Option.isNone_iff_eq_none.mp hfree.1]
    · simp [hfd]
  · rfl

@[simp] theorem maxEvents_addEv (e : Epoller) (pCo : Option Addr) (fd : Fd) (canPoll : Bool) :
    (e.addEv pCo fd canPoll).1.maxEvents = e.maxEvents := by
  unfold addEv
  split <;> rfl

end Epoller

/-- A `Processor` and its thread. -/
structure Processor where
  /-- `newCoroutines_` and `runningNewQue_`. -/
  queue : DoubleBuffer Entry
  /-- `actCoroutines_`. -/
  actCoroutines : List (Option Addr)
  /-- `coSet_`. -/
  coSet : Finset Addr
  /-- `timerExpiredCo_`. -/
  timerExpiredCo : List Addr
  /-- `removedCo_`. -/
  removedCo : List Addr
  /-- `epoller_`. -/
  epoller : Epoller
  /-- `timer_`. -/
  timer : Timer
  /-- `pCurCoroutine_`. -/
  pCurCoroutine : Option Addr
  /-- Where the loop stands, while a coroutine executes as well. -/
  pc : LoopPc
  /-- The coroutine whose code the thread executes, and where it stands; `none` in the loop. -/
  exec : Option (Addr × Code)

namespace Processor

variable (P : Processor)

/-- The not yet processed part of `timerExpiredCo_`. -/
def expiredRest : List Addr :=
  match P.pc with
  | .getExpired | .readTimefd | .rearm => P.timerExpiredCo
  | .timers i => P.timerExpiredCo.drop i
  | _ => []

/-- The not yet processed part of `actCoroutines_`. -/
def activeRest : List (Option Addr) :=
  match P.pc with
  | .start | .top | .epollWait | .reclaim _ => []
  | .events i => P.actCoroutines.drop i
  | _ => P.actCoroutines

/-- The not yet processed part of `removedCo_`. -/
def removedRest : List Addr :=
  match P.pc with
  | .reclaim i => P.removedCo.drop i
  | _ => P.removedCo

/-- The timer after a `wakeUp`. Before `Timer::init` there is no descriptor: `timeFd_` is `-1`,
`timerfd_settime` fails, and nobody looks at what it returns. -/
def wokenTimer (clock : ℤ) : Timer :=
  if P.pc = .start then P.timer else P.timer.wakeUp clock

theorem wokenTimer_eq (clock : ℤ) :
    P.wokenTimer clock = P.timer ∨ P.wokenTimer clock = P.timer.wakeUp clock := by
  unfold wokenTimer
  split
  · exact .inl rfl
  · exact .inr rfl

@[simp] theorem heap_wokenTimer (clock : ℤ) : (P.wokenTimer clock).heap = P.timer.heap := by
  unfold wokenTimer
  split <;> rfl

end Processor

/-! ## Read-write locks -/

inductive MuStatus
  | free | reading | writing
deriving DecidableEq

/-- An `RWMutex`. Of its protected sections only that of an unlock that calls `freeLock` takes
several steps, so `locked` tells whether one of those is in progress. -/
structure RWMutex where
  /-- `state_`. -/
  state : MuStatus
  /-- `readingNum_`, an `atomic_int`. -/
  readingNum : BitVec 32
  /-- `lock_` is held. -/
  locked : Bool
  /-- `waitingCo_`. -/
  waitingCo : List Addr

namespace RWMutex

def created : RWMutex := ⟨.free, 0, false, []⟩

variable (μ : RWMutex)

/-- The protected section of `rlock` up to the `return`, when it gets the lock. -/
def rlock : Option RWMutex :=
  if μ.state = .free ∨ μ.state = .reading then
    some { μ with readingNum := μ.readingNum + 1, state := .reading }
  else none

/-- The protected section of `wlock` up to the `return`, when it gets the lock. -/
def wlock : Option RWMutex :=
  if μ.state = .free then some { μ with state := .writing } else none

/-- The rest of a protected section that did not get the lock. -/
def park (pCo : Addr) : RWMutex := { μ with waitingCo := μ.waitingCo ++ [pCo] }

/-- `freeLock` up to its loop, with `lock_` held. -/
def startFreeLock : RWMutex := { μ with state := .free, locked := true }

/-- The protected section of `runlock` up to the loop of `freeLock`, if it gets there. -/
def runlock : RWMutex :=
  let cur := μ.readingNum
  let μ := { μ with readingNum := μ.readingNum - 1 }
  if cur = 1 then μ.startFreeLock else μ

/-- The protected section of `wunlock` up to the loop of `freeLock`. -/
def wunlock : RWMutex := μ.startFreeLock

variable {μ}

theorem rlock_eq_none (h : μ.rlock = none) : μ.state = .writing := by
  simp only [rlock, ite_eq_right_iff, reduceCtorEq, imp_false, not_or] at h
  cases hstate : μ.state <;> simp_all

theorem wlock_eq_none (h : μ.wlock = none) : μ.state ≠ .free := by
  simpa only [wlock, ite_eq_right_iff, reduceCtorEq, imp_false] using h

theorem rlock_eq_some {ν : RWMutex} (h : μ.rlock = some ν) :
    (μ.state = .free ∨ μ.state = .reading) ∧
      ν = { μ with readingNum := μ.readingNum + 1, state := .reading } := by
  obtain ⟨hstate, heq⟩ := Option.ite_none_right_eq_some.mp h
  exact ⟨hstate, (Option.some.inj heq).symm⟩

theorem wlock_eq_some {ν : RWMutex} (h : μ.wlock = some ν) :
    μ.state = .free ∧ ν = { μ with state := .writing } := by
  obtain ⟨hstate, heq⟩ := Option.ite_none_right_eq_some.mp h
  exact ⟨hstate, (Option.some.inj heq).symm⟩

theorem waitingCo_of_rlock {ν : RWMutex} (h : μ.rlock = some ν) : ν.waitingCo = μ.waitingCo := by
  obtain ⟨-, rfl⟩ := rlock_eq_some h
  rfl

theorem waitingCo_of_wlock {ν : RWMutex} (h : μ.wlock = some ν) : ν.waitingCo = μ.waitingCo := by
  obtain ⟨-, rfl⟩ := wlock_eq_some h
  rfl

theorem waitingCo_runlock : μ.runlock.waitingCo = μ.waitingCo := by
  simp only [runlock]
  split <;> rfl
end RWMutex

/-! ## The whole system -/

/-- Where a thread outside the scheduler stands. -/
inductive ExtCode
  /-- Outside the functions of the runtime. -/
  | idle
  /-- In `goNewCo`: the object has been built, `goCo` is next. -/
  | goCo (q : Pid) (a : Addr)
  /-- In `goCo` or `goCoBatch`: `wakeUpEpoller` is next. -/
  | wake (q : Pid) (call : ℕ)
deriving DecidableEq

/-- The state of a program. -/
structure Sys where
  /-- The processors. -/
  pros : Pid → Processor
  /-- The coroutine objects. -/
  cos : Addr → Option Coroutine
  /-- The processors whose `coPool_` the blocks belong to. -/
  pool : Addr → Option Pid
  /-- The read-write locks. -/
  mus : MuId → RWMutex
  /-- The threads outside the scheduler. -/
  exts : Tid → ExtCode
  /-- The present instant, in microseconds. -/
  clock : ℤ
  /-- How many coroutines have been built. -/
  nextSerial : ℕ
  /-- How many times `goCo` and `goCoBatch` have been called. -/
  nextCall : ℕ
  /-- The calls that have not returned. -/
  openCalls : List ℕ
  /-- The serial numbers of the coroutines that hold a read lock, once for each time. -/
  readers : MuId → List ℕ
  /-- The serial numbers of the coroutines that hold the write lock. -/
  writers : MuId → List ℕ

namespace Sys

variable (s : Sys)

def setPro (p : Pid) (P : Processor) : Sys := { s with pros := Function.update s.pros p P }

def setCo (a : Addr) (c : Option Coroutine) : Sys := { s with cos := Function.update s.cos a c }

def setMu (m : MuId) (μ : RWMutex) : Sys := { s with mus := Function.update s.mus m μ }

def setExt (t : Tid) (e : ExtCode) : Sys := { s with exts := Function.update s.exts t e }

def setExec (p : Pid) (e : Option (Addr × Code)) : Sys :=
  s.setPro p { s.pros p with exec := e }

def setCur (p : Pid) (a : Addr) : Sys :=
  s.setPro p { s.pros p with pCurCoroutine := some a }

/-! ### Reading a field after a replacement -/

section Fields

variable (p : Pid) (P : Processor) (a : Addr) (c : Option Coroutine) (m : MuId) (μ : RWMutex)
  (t : Tid) (e : ExtCode)

theorem pros_setPro (q : Pid) : (s.setPro p P).pros q = if q = p then P else s.pros q :=
  Function.update_apply ..

@[simp] theorem pros_setPro_self : (s.setPro p P).pros p = P := Function.update_self ..

theorem pros_setPro_of_ne {q : Pid} (h : q ≠ p) : (s.setPro p P).pros q = s.pros q :=
  Function.update_of_ne h ..

@[simp] theorem cos_setPro : (s.setPro p P).cos = s.cos := rfl

@[simp] theorem pool_setPro : (s.setPro p P).pool = s.pool := rfl

@[simp] theorem mus_setPro : (s.setPro p P).mus = s.mus := rfl

@[simp] theorem exts_setPro : (s.setPro p P).exts = s.exts := rfl

@[simp] theorem clock_setPro : (s.setPro p P).clock = s.clock := rfl

@[simp] theorem nextSerial_setPro : (s.setPro p P).nextSerial = s.nextSerial := rfl

@[simp] theorem nextCall_setPro : (s.setPro p P).nextCall = s.nextCall := rfl

@[simp] theorem openCalls_setPro : (s.setPro p P).openCalls = s.openCalls := rfl

@[simp] theorem readers_setPro : (s.setPro p P).readers = s.readers := rfl

@[simp] theorem writers_setPro : (s.setPro p P).writers = s.writers := rfl

theorem pros_setExec_of_ne (x : Option (Addr × Code)) {q : Pid} (h : q ≠ p) :
    (s.setExec p x).pros q = s.pros q := s.pros_setPro_of_ne _ _ h

@[simp] theorem pros_setExec_self (x : Option (Addr × Code)) :
    (s.setExec p x).pros p = { s.pros p with exec := x } := s.pros_setPro_self _ _

theorem cos_setCo (b : Addr) : (s.setCo a c).cos b = if b = a then c else s.cos b :=
  Function.update_apply ..

@[simp] theorem cos_setCo_self : (s.setCo a c).cos a = c := Function.update_self ..

@[simp] theorem pros_setCo : (s.setCo a c).pros = s.pros := rfl

@[simp] theorem pool_setCo : (s.setCo a c).pool = s.pool := rfl

@[simp] theorem mus_setCo : (s.setCo a c).mus = s.mus := rfl

@[simp] theorem exts_setCo : (s.setCo a c).exts = s.exts := rfl

@[simp] theorem clock_setCo : (s.setCo a c).clock = s.clock := rfl

@[simp] theorem nextSerial_setCo : (s.setCo a c).nextSerial = s.nextSerial := rfl

@[simp] theorem nextCall_setCo : (s.setCo a c).nextCall = s.nextCall := rfl

@[simp] theorem openCalls_setCo : (s.setCo a c).openCalls = s.openCalls := rfl

@[simp] theorem readers_setCo : (s.setCo a c).readers = s.readers := rfl

@[simp] theorem writers_setCo : (s.setCo a c).writers = s.writers := rfl

theorem mus_setMu (n : MuId) : (s.setMu m μ).mus n = if n = m then μ else s.mus n :=
  Function.update_apply ..

@[simp] theorem pros_setMu : (s.setMu m μ).pros = s.pros := rfl

@[simp] theorem cos_setMu : (s.setMu m μ).cos = s.cos := rfl

@[simp] theorem pool_setMu : (s.setMu m μ).pool = s.pool := rfl

@[simp] theorem exts_setMu : (s.setMu m μ).exts = s.exts := rfl

@[simp] theorem clock_setMu : (s.setMu m μ).clock = s.clock := rfl

@[simp] theorem nextSerial_setMu : (s.setMu m μ).nextSerial = s.nextSerial := rfl

@[simp] theorem nextCall_setMu : (s.setMu m μ).nextCall = s.nextCall := rfl

@[simp] theorem openCalls_setMu : (s.setMu m μ).openCalls = s.openCalls := rfl

@[simp] theorem readers_setMu : (s.setMu m μ).readers = s.readers := rfl

@[simp] theorem writers_setMu : (s.setMu m μ).writers = s.writers := rfl

theorem exts_setExt (u : Tid) : (s.setExt t e).exts u = if u = t then e else s.exts u :=
  Function.update_apply ..

@[simp] theorem pros_setExt : (s.setExt t e).pros = s.pros := rfl

@[simp] theorem cos_setExt : (s.setExt t e).cos = s.cos := rfl

@[simp] theorem pool_setExt : (s.setExt t e).pool = s.pool := rfl

@[simp] theorem mus_setExt : (s.setExt t e).mus = s.mus := rfl

@[simp] theorem clock_setExt : (s.setExt t e).clock = s.clock := rfl

@[simp] theorem nextSerial_setExt : (s.setExt t e).nextSerial = s.nextSerial := rfl

@[simp] theorem nextCall_setExt : (s.setExt t e).nextCall = s.nextCall := rfl

@[simp] theorem openCalls_setExt : (s.setExt t e).openCalls = s.openCalls := rfl

@[simp] theorem readers_setExt : (s.setExt t e).readers = s.readers := rfl

@[simp] theorem writers_setExt : (s.setExt t e).writers = s.writers := rfl

end Fields

/-- A processor as its constructor leaves it. -/
def freshPro : Processor where
  queue := .empty
  actCoroutines := []
  coSet := ∅
  timerExpiredCo := []
  removedCo := []
  epoller := ⟨fun _ ↦ none, 16⟩
  timer := .created
  pCurCoroutine := none
  pc := .start
  exec := none

/-- A program whose processors have been built, and of whose threads none has come as far as
`Epoller::init`. -/
def fresh (clock : ℤ) : Sys where
  pros _ := freshPro
  cos _ := none
  pool _ := none
  mus _ := .created
  exts _ := .idle
  clock := clock
  nextSerial := 0
  nextCall := 0
  openCalls := []
  readers _ := []
  writers _ := []

end Sys

end Copnet
