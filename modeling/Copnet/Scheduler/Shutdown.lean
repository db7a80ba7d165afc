import Copnet.Foundation.Transition
import Mathlib.Data.List.Count
import Mathlib.Data.Nat.Notation
import Mathlib.Logic.Function.Basic

/-!
# Stopping and joining the loop threads

Three parties write the one word `status_` of a processor: its loop thread when it begins its loop
and when it has left it, and whoever calls `stop`. The destructor of a processor reads it twice to
find out whether it has to stop the thread and whether it has to join it.

The machine here is any number of processors with their loop threads and those who tear them down,
one access to `status_` a step. Either a scheduler owns the processors, starts them, and goes
through `Scheduler::~Scheduler`, or each of them is started and destroyed by an owner of its own.
What is wrong with a step (a thread that is joined twice, or deleted without having been joined) is
said in its event.

`expected` is the point of the argument: as long as loop threads begin their loop before they are
told to stop, the status word is a function of where the loop thread is and of whether it has been
told to stop.

The lambda that a loop thread runs is to return a `bool`, since it returns `false` where the
initialisation fails. After `status_ = PRO_STOPPED` it flows off its end, which is undefined. The
step that does so says so in its event, and the machine goes on from there as if the lambda had
returned.
-/

open Transition

namespace Copnet

inductive ProcesserStatus
  | PRO_RUNNING
  | PRO_STOPPING
  | PRO_STOPPED
deriving DecidableEq

/-- Where a loop thread is. -/
inductive ThreadPc
  /-- There is no thread. -/
  | absent
  /-- Before `epoller_.init()` and `timer_.init()`. -/
  | starting
  /-- Before `status_ = PRO_RUNNING`. -/
  | ready
  /-- Before the test of `while`. -/
  | testing
  /-- In an iteration. -/
  | iterating
  /-- Before `status_ = PRO_STOPPED`. -/
  | leaving
  /-- Before the end of the lambda, where there is no `return`. -/
  | falling
  /-- The thread has ended; `failed` if because it could not be initialised. -/
  | ended (failed : Bool)
deriving DecidableEq

/-- Where the destructor of a processor is. -/
inductive DtorPc
  /-- It has not been called. -/
  | idle
  /-- Before `PRO_RUNNING == status_`. -/
  | test1
  /-- Before `stop()`. -/
  | stop
  /-- Before `PRO_STOPPING == status_`; `stopped` if the destructor has called `stop()`. -/
  | test2 (stopped : Bool)
  /-- Before `join()`. -/
  | join
  /-- Before `delete pLoop_`. -/
  | delete
  /-- It has returned. -/
  | gone
deriving DecidableEq

/-- What happens to a processor's thread. -/
inductive ProcEvent
  /-- `new std::thread`. -/
  | loop
  /-- `status_ = PRO_RUNNING`. -/
  | running
  /-- The test of `while` succeeds, and an iteration begins. -/
  | iteration
  /-- The lambda flows off its end, and anything can happen. -/
  | undefined
  /-- `status_ = PRO_STOPPING`. -/
  | stop
  /-- `pLoop_->join()` returns; `valid` if the thread had not been joined. -/
  | join (valid : Bool)
  /-- `delete pLoop_`; `valid` if the thread has been joined. -/
  | delete (valid : Bool)
deriving DecidableEq

def ProcEvent.isJoin : ProcEvent → Bool
  | .join _ => true
  | _ => false

/-- What of `Processor` its start and its end have to do with. -/
structure Proc where
  /-- `status_`. -/
  status : ProcesserStatus
  /-- `nullptr != pLoop_`. -/
  pLoop : Bool
  /-- The thread that `pLoop_` points to is joinable. -/
  joinable : Bool
  /-- Where the loop thread is. -/
  thread : ThreadPc
  /-- Where the destructor is. -/
  dtor : DtorPc
  /-- `stop()` has been executed. -/
  stopped : Bool
deriving DecidableEq

namespace Proc

variable (p : Proc)

/-- `Processor::Processor`. -/
def created : Proc := ⟨.PRO_STOPPED, false, false, .absent, .idle, false⟩

/-- `Processor::loop`. -/
def loop : Proc := { p with pLoop := true, joinable := true, thread := .starting }

/-- `Processor::stop`. -/
def stop : Proc := { p with status := .PRO_STOPPING, stopped := true }

/-- `Processor::join`, which returns when the thread has ended. -/
def join : Option (Proc × List ProcEvent) :=
  match p.thread with
  | .ended _ => some ({ p with joinable := false }, [.join p.joinable])
  | _ => none

/-- The loop thread takes its next step, where `init` says whether its initialisation succeeds. -/
def threadStep (init : Bool) : Option (Proc × List ProcEvent) :=
  match p.thread with
  | .absent => none
  | .starting => some ({ p with thread := if init then .ready else .ended true }, [])
  | .ready => some ({ p with status := .PRO_RUNNING, thread := .testing }, [.running])
  | .testing =>
    if p.status = .PRO_RUNNING then some ({ p with thread := .iterating }, [.iteration])
    else some ({ p with thread := .leaving }, [])
  | .iterating => some ({ p with thread := .testing }, [])
  | .leaving => some ({ p with status := .PRO_STOPPED, thread := .falling }, [])
  -- no `return`: this is what happens if the undefined end does as a return would
  | .falling => some ({ p with thread := .ended false }, [.undefined])
  | .ended _ => none

/-- `Processor::~Processor` takes its next step. -/
def dtorStep : Option (Proc × List ProcEvent) :=
  match p.dtor with
  | .idle => some ({ p with dtor := .test1 }, [])
  | .test1 =>
    some ({ p with dtor := if p.status = .PRO_RUNNING then .stop else .test2 false }, [])
  | .stop => some ({ p.stop with dtor := .test2 true }, [.stop])
  | .test2 _ =>
    some ({ p with dtor := if p.status = .PRO_STOPPING then .join else .delete }, [])
  | .join => p.join.map fun r ↦ ({ r.1 with dtor := .delete }, r.2)
  | .delete =>
    some ({ p with dtor := .gone }, if p.pLoop then [.delete (!p.joinable)] else [])
  | .gone => none

end Proc

/-- Who owns the processors, and where the owner is. -/
inductive Owner
  /-- Each processor has an owner of its own. -/
  | alone
  /-- In `Scheduler::startScheduler`, before processor `i`. -/
  | launching (i : ℕ)
  /-- The scheduler is up. -/
  | up
  /-- In the first loop of `Scheduler::~Scheduler`, before `stop()` of processor `i`. -/
  | stopping (i : ℕ)
  /-- In the second loop, before `join()` of processor `i`. -/
  | joining (i : ℕ)
  /-- In the second loop, in `delete` of processor `i`. -/
  | deleting (i : ℕ)
  /-- The scheduler is gone. -/
  | gone
deriving DecidableEq

/-- Processors, and who owns them. -/
structure Teardown where
  /-- The owner. -/
  owner : Owner
  /-- The processors. -/
  procs : ℕ → Proc

inductive TeardownAct
  /-- The loop thread of processor `i` takes a step. -/
  | thread (i : ℕ) (init : Bool)
  /-- The scheduler takes a step. -/
  | owner
  /-- The owner of processor `i` calls `loop()`. -/
  | loop (i : ℕ)
  /-- The owner of processor `i` destroys it, one step. -/
  | destroy (i : ℕ)
deriving DecidableEq

namespace Teardown

variable (s : Teardown)

def start (owner : Owner) : Teardown := ⟨owner, fun _ ↦ .created⟩

def set (i : ℕ) (p : Proc) : Teardown := { s with procs := Function.update s.procs i p }

/-- Something happens to processor `i`, and the owner goes on to `owner`. -/
def act (i : ℕ) (owner : Owner) (r : Proc × List ProcEvent) : Teardown × List (ℕ × ProcEvent) :=
  ({ s.set i r.1 with owner }, r.2.map fun ev ↦ (i, ev))

/-- The scheduler with `n` processors takes its next step. -/
def ownerStep (n : ℕ) : Option (Teardown × List (ℕ × ProcEvent)) :=
  match s.owner with
  | .alone => none
  | .launching i =>
    if i < n then some (s.act i (.launching (i + 1)) ((s.procs i).loop, [.loop]))
    else some ({ s with owner := .up }, [])
  | .up => some ({ s with owner := .stopping 0 }, [])
  | .stopping i =>
    if i < n then some (s.act i (.stopping (i + 1)) ((s.procs i).stop, [.stop]))
    else some ({ s with owner := .joining 0 }, [])
  | .joining i =>
    if i < n then (s.procs i).join.map (s.act i (.deleting i))
    else some ({ s with owner := .gone }, [])
  | .deleting i =>
    (s.procs i).dtorStep.map fun r ↦
      s.act i (if r.1.dtor = .gone then .joining (i + 1) else .deleting i) r
  | .gone => none

/-- One step, where a scheduler has `n` processors. An owner calls `loop()` once, and not on a
processor that it is destroying. -/
def step (n : ℕ) : TeardownAct → Option (Teardown × List (ℕ × ProcEvent))
  | .thread i init => ((s.procs i).threadStep init).map (s.act i s.owner)
  | .owner => s.ownerStep n
  | .loop i =>
    if s.owner = .alone ∧ (s.procs i).pLoop = false ∧ (s.procs i).dtor = .idle then
      some (s.act i s.owner ((s.procs i).loop, [.loop]))
    else none
  | .destroy i =>
    if s.owner = .alone then (s.procs i).dtorStep.map (s.act i s.owner) else none

/-- The machine of processors from their start to their end, on either path. -/
def machine (n : ℕ) : Machine Teardown TeardownAct (ℕ × ProcEvent) where
  init s := s = start .alone ∨ s = start (.launching 0)
  step s := s.step n

end Teardown

def eventsAt (i : ℕ) (evs : List (ℕ × ProcEvent)) : List ProcEvent :=
  evs.filterMap fun ev ↦ if ev.1 = i then some ev.2 else none

/-- What is expected of stopping and joining a thread, given what has happened to its processor and
what it has become, as far as it is defined. -/
structure StopsAndJoins (evs : List ProcEvent) (p : Proc) : Prop where
  /-- Once `stop()` has been executed, the status is not running. -/
  stays : .stop ∈ evs → p.status ≠ .PRO_RUNNING
  /-- No iteration begins after it. -/
  last : Along (fun past ev ↦ ev = .iteration → .stop ∉ past) evs
  /-- The thread is not joined twice. -/
  once : evs.countP ProcEvent.isJoin ≤ 1
  /-- It has been joined once when it is deleted. -/
  joined : Along (fun past ev ↦ ∀ valid, ev = .delete valid →
    valid = true ∧ past.countP ProcEvent.isJoin = 1) evs

/-- What is expected of stopping and joining a thread. -/
structure ShutsDown (evs : List ProcEvent) (p : Proc) : Prop extends StopsAndJoins evs p where
  /-- Nothing undefined has happened, after which nothing could be expected. -/
  defined : .undefined ∉ evs

/-- The loop thread has stored `PRO_STOPPED`. -/
def ThreadPc.hasLeft : ThreadPc → Bool
  | .falling | .ended false => true
  | .absent | .starting | .ready | .testing | .iterating | .leaving | .ended true => false

/-- The loop thread of `p` has not been told to stop before it begins its loop. -/
def Proc.BeginsInTime (p : Proc) : Prop := p.thread = .ready → p.stopped = false

/-- A destructor at `dtor` does not come too late to its second test, nor too early. A scheduler has
joined the thread, which must not have failed to be initialised; otherwise the destructor must have
found it running, and it must not have left its loop yet. -/
def DtorPc.InTime (viaScheduler : Bool) (p : Proc) : DtorPc → Prop
  | .test2 stopped =>
    p.pLoop = true →
      if viaScheduler then p.thread ≠ .ended true else stopped = true ∧ p.thread.hasLeft = false
  | .idle | .test1 | .stop | .join | .delete | .gone => True

def Proc.TestsInTime (viaScheduler : Bool) (p : Proc) : Prop := p.dtor.InTime viaScheduler p

/-- The scheduler, which has the processors `procs`, takes its next step in time. -/
def Owner.InTime (procs : ℕ → Proc) : Owner → Prop
  | .deleting i => (procs i).TestsInTime true
  | .alone | .launching _ | .up | .stopping _ | .joining _ | .gone => True

/-- Loop threads begin in time, and destructors test in time. -/
def Teardown.InTime (s : Teardown) : TeardownAct → Prop
  | .thread i _ => (s.procs i).BeginsInTime
  | .owner => s.owner.InTime s.procs
  | .loop _ => True
  | .destroy i => (s.procs i).TestsInTime false

/-- No loop thread goes on from where its lambda ends. -/
def Teardown.StaysDefined (s : Teardown) : TeardownAct → Prop
  | .thread i _ => (s.procs i).thread ≠ .falling
  | .owner | .loop _ | .destroy _ => True

/-- All is in time, and no loop thread comes to its end. -/
def Teardown.InOrder (s : Teardown) (a : TeardownAct) : Prop := s.InTime a ∧ s.StaysDefined a

instance (p : Proc) : Decidable p.BeginsInTime :=
  inferInstanceAs (Decidable (p.thread = .ready → p.stopped = false))

instance (viaScheduler : Bool) (p : Proc) : (dtor : DtorPc) →
    Decidable (dtor.InTime viaScheduler p)
  | .test2 stopped => inferInstanceAs (Decidable (p.pLoop = true →
      if viaScheduler then p.thread ≠ .ended true else
        stopped = true ∧ p.thread.hasLeft = false))
  | .idle | .test1 | .stop | .join | .delete | .gone => isTrue trivial

instance (viaScheduler : Bool) (p : Proc) : Decidable (p.TestsInTime viaScheduler) :=
  inferInstanceAs (Decidable (p.dtor.InTime viaScheduler p))

instance (procs : ℕ → Proc) : (owner : Owner) → Decidable (owner.InTime procs)
  | .deleting i => inferInstanceAs (Decidable ((procs i).TestsInTime true))
  | .alone | .launching _ | .up | .stopping _ | .joining _ | .gone => isTrue trivial

instance (s : Teardown) : (a : TeardownAct) → Decidable (s.InTime a)
  | .thread i _ => inferInstanceAs (Decidable (s.procs i).BeginsInTime)
  | .owner => inferInstanceAs (Decidable (s.owner.InTime s.procs))
  | .loop _ => isTrue trivial
  | .destroy i => inferInstanceAs (Decidable ((s.procs i).TestsInTime false))

instance (s : Teardown) : (a : TeardownAct) → Decidable (s.StaysDefined a)
  | .thread i _ => inferInstanceAs (Decidable ((s.procs i).thread ≠ .falling))
  | .owner | .loop _ | .destroy _ => isTrue trivial

instance (s : Teardown) (a : TeardownAct) : Decidable (s.InOrder a) :=
  inferInstanceAs (Decidable (s.InTime a ∧ s.StaysDefined a))

/-! ## One processor -/

/-- The status of a processor whose loop thread is at `thread` and has been told to stop or not, if
it has begun its loop in time. -/
def ThreadPc.expected : ThreadPc → Bool → ProcesserStatus
  | .absent, stopped | .starting, stopped | .ready, stopped | .ended true, stopped =>
    if stopped then .PRO_STOPPING else .PRO_STOPPED
  | .testing, stopped | .iterating, stopped => if stopped then .PRO_STOPPING else .PRO_RUNNING
  | .leaving, _ => .PRO_STOPPING
  | .falling, _ | .ended false, _ => .PRO_STOPPED

theorem ThreadPc.expected_told {thread : ThreadPc} (h : thread.hasLeft = false) :
    thread.expected true = .PRO_STOPPING := by
  cases thread with
  | ended failed =>
    cases failed with
    | true => rfl
    | false => exact absurd h (by decide)
  | falling => exact absurd h (by decide)
  | absent | starting | ready | testing | iterating | leaving => rfl

/-- The loop thread has stored `PRO_RUNNING`. -/
def ThreadPc.hasBegun : ThreadPc → Bool
  | .testing | .iterating | .leaving | .falling | .ended false => true
  | .absent | .starting | .ready | .ended true => false

theorem ThreadPc.hasBegun_of_expected {thread : ThreadPc} {stopped : Bool}
    (h : thread.expected stopped = .PRO_RUNNING) : thread.hasBegun = true := by
  cases thread with
  | ended failed => cases failed <;> cases stopped <;> simp_all [ThreadPc.expected]
  | absent | starting | ready | leaving | falling => cases stopped <;> simp_all [ThreadPc.expected]
  | testing | iterating => rfl

/-- What a step of the loop thread can do. -/
inductive Proc.ThreadStep (p : Proc) (init : Bool) : Proc → List ProcEvent → Prop
  | starts (hthread : p.thread = .starting) :
      ThreadStep p init { p with thread := if init then .ready else .ended true } []
  | runs (hthread : p.thread = .ready) :
      ThreadStep p init { p with status := .PRO_RUNNING, thread := .testing } [.running]
  | iterates (hthread : p.thread = .testing) (hrunning : p.status = .PRO_RUNNING) :
      ThreadStep p init { p with thread := .iterating } [.iteration]
  | leaves (hthread : p.thread = .testing) (hrunning : p.status ≠ .PRO_RUNNING) :
      ThreadStep p init { p with thread := .leaving } []
  | returns (hthread : p.thread = .iterating) : ThreadStep p init { p with thread := .testing } []
  | stores (hthread : p.thread = .leaving) :
      ThreadStep p init { p with status := .PRO_STOPPED, thread := .falling } []
  | falls (hthread : p.thread = .falling) :
      ThreadStep p init { p with thread := .ended false } [.undefined]

theorem Proc.ThreadStep.of_step {p p' : Proc} {init : Bool} {es : List ProcEvent}
    (hstep : p.threadStep init = some (p', es)) : p.ThreadStep init p' es := by
  rw [threadStep.eq_def] at hstep
  cases hthread : p.thread with
  | testing =>
    simp only [hthread] at hstep
    split at hstep <;> obtain ⟨rfl, rfl⟩ := Prod.mk.inj (Option.some.inj hstep)
    · exact .iterates hthread ‹_›
    · exact .leaves hthread ‹_›
  | starting | ready | iterating | leaving | falling =>
    simp only [hthread] at hstep
    obtain ⟨rfl, rfl⟩ := Prod.mk.inj (Option.some.inj hstep)
    constructor
    exact hthread
  | absent | ended failed => simp [hthread] at hstep

/-- What holds of a processor to which `evs` have happened. -/
structure Proc.Traced (evs : List ProcEvent) (p : Proc) : Prop where
  /-- The status is what is expected. -/
  status : p.status = p.thread.expected p.stopped
  /-- A thread leaves its loop when it has been told to stop. -/
  left : p.thread = .leaving ∨ p.thread.hasLeft = true → p.stopped = true
  /-- It has ended, unless it could not be initialised, by flowing off the end of its lambda. -/
  fell : .undefined ∈ evs ↔ p.thread = .ended false
  /-- It has been told so by `stop()`. -/
  told : .stop ∈ evs ↔ p.stopped = true
  /-- A thread is joined once. -/
  joins : evs.countP ProcEvent.isJoin = if p.pLoop = true ∧ p.joinable = false then 1 else 0
  /-- A thread that has been joined has ended. -/
  waited : p.pLoop = true → p.joinable = false → ∃ failed, p.thread = .ended failed
  /-- Without `loop()` there is no thread. -/
  absent : p.pLoop = false → p.thread = .absent ∧ p.joinable = false
  /-- No iteration has begun after `stop()`. -/
  last : Along (fun past ev ↦ ev = .iteration → .stop ∉ past) evs
  /-- What has been deleted had been joined once. -/
  joined : Along (fun past ev ↦ ∀ valid, ev = .delete valid →
    valid = true ∧ past.countP ProcEvent.isJoin = 1) evs

namespace Proc

variable {p p' : Proc} {evs es : List ProcEvent} {thread : ThreadPc} {init : Bool}

theorem traced_created : Traced [] created where
  status := rfl
  left h := by simp [created, ThreadPc.hasLeft] at h
  fell := by simp [created]
  told := by simp [created]
  joins := rfl
  waited h := absurd h (by decide)
  absent _ := ⟨rfl, rfl⟩
  last := along_nil
  joined := along_nil

namespace Traced

theorem status_ne (h : Traced evs p) (hstopped : p.stopped = true) : p.status ≠ .PRO_RUNNING := by
  rw [h.status, hstopped]
  cases hthread : p.thread with
  | ended failed => cases failed <;> decide
  | absent | starting | ready | testing | iterating | leaving | falling => decide

theorem stopsAndJoins (h : Traced evs p) : StopsAndJoins evs p where
  stays hstop := h.status_ne (h.told.mp hstop)
  last := h.last
  once := by
    rw [h.joins]
    split <;> decide
  joined := h.joined

theorem of_dtor (h : Traced evs p) (dtor : DtorPc) : Traced evs { p with dtor } :=
  ⟨h.status, h.left, h.fell, h.told, h.joins, h.waited, h.absent, h.last, h.joined⟩

theorem of_thread (h : Traced evs p) (hexpected : thread.expected p.stopped = p.status)
    (hleft : thread = .leaving ∨ thread.hasLeft = true → p.stopped = true)
    (hgoes : thread ≠ .ended false) (habsent : p.thread ≠ .absent)
    (hended : ∀ failed, p.thread ≠ .ended failed) : Traced evs { p with thread } := by
  refine ⟨hexpected.symm, hleft, ?_, h.told, h.joins, ?_, ?_, h.last, h.joined⟩
  · exact iff_of_false (mt h.fell.mp (hended false)) hgoes
  · intro hloop hjoined
    obtain ⟨failed, hthread⟩ := h.waited hloop hjoined
    exact absurd hthread (hended failed)
  · intro hnone
    exact absurd (h.absent hnone).1 habsent

theorem event (h : Traced evs p) (ev : ProcEvent) (hstop : ev ≠ .stop) (hfell : ev ≠ .undefined)
    (hjoin : ev.isJoin = false) (hlast : ev = .iteration → p.stopped = false)
    (hjoined : ∀ valid, ev = .delete valid →
      valid = true ∧ p.pLoop = true ∧ p.joinable = false) : Traced (evs ++ [ev]) p := by
  refine ⟨h.status, h.left, ?_, ?_, ?_, h.waited, h.absent, ?_, ?_⟩
  · rw [List.mem_append, List.mem_singleton, or_iff_left hfell.symm]
    exact h.fell
  · rw [List.mem_append, List.mem_singleton, or_iff_left hstop.symm]
    exact h.told
  · rw [List.countP_append, List.countP_singleton, hjoin]
    exact h.joins
  · refine along_snoc.mpr ⟨h.last, ?_⟩
    intro hiter hmem
    have hstopped := h.told.mp hmem
    rw [hlast hiter] at hstopped
    exact absurd hstopped (by decide)
  · refine along_snoc.mpr ⟨h.joined, ?_⟩
    intro valid hdelete
    obtain ⟨hvalid, hjoined⟩ := hjoined valid hdelete
    refine ⟨hvalid, ?_⟩
    rw [h.joins, if_pos hjoined]

theorem loop (h : Traced evs p) (hnone : p.pLoop = false) : Traced (evs ++ [.loop]) p.loop := by
  have hstatus := h.status
  rw [(h.absent hnone).1] at hstatus
  have hjoins := h.joins
  rw [if_neg (by simp [hnone])] at hjoins
  have hfell : .undefined ∉ evs := by
    rw [h.fell, (h.absent hnone).1]
    simp
  refine ⟨hstatus, by simp [Proc.loop, ThreadPc.hasLeft], ?_, ?_, ?_, ?_, ?_, ?_, ?_⟩
  · simpa [Proc.loop] using hfell
  · simpa [Proc.loop] using h.told
  · rw [List.countP_append, hjoins]
    rfl
  · intro _ hjoined
    exact absurd hjoined (by simp [Proc.loop])
  · intro hfalse
    exact absurd hfalse (by simp [Proc.loop])
  · exact along_snoc.mpr ⟨h.last, by simp⟩
  · exact along_snoc.mpr ⟨h.joined, by simp⟩

theorem stop (h : Traced evs p) (hstopped : p.stopped = false) :
    Traced (evs ++ [.stop]) p.stop := by
  have hstatus : p.stop.status = p.stop.thread.expected p.stop.stopped := by
    refine (ThreadPc.expected_told ?_).symm
    by_contra hthread
    rw [Bool.not_eq_false] at hthread
    have htold := h.left (.inr hthread)
    rw [hstopped] at htold
    exact absurd htold (by decide)
  refine ⟨hstatus, fun _ ↦ rfl, ?_, ?_, ?_, h.waited, h.absent, ?_, ?_⟩
  · simpa [Proc.stop] using h.fell
  · exact iff_of_true (List.mem_append_right _ List.mem_cons_self) rfl
  · rw [List.countP_append]
    exact h.joins
  · exact along_snoc.mpr ⟨h.last, by simp⟩
  · exact along_snoc.mpr ⟨h.joined, by simp⟩

theorem join (h : Traced evs p) (hloop : p.pLoop = true) (hjoinable : p.joinable = true)
    (hjoin : p.join = some (p', es)) :
    Traced (evs ++ es) p' ∧ p' = { p with joinable := false } ∧
      ∃ failed, p.thread = .ended failed := by
  rw [Proc.join] at hjoin
  split at hjoin
  · next failed hthread =>
    obtain ⟨rfl, rfl⟩ := Prod.mk.inj (Option.some.inj hjoin)
    have hjoins := h.joins
    rw [if_neg (by simp [hjoinable])] at hjoins
    refine ⟨⟨h.status, h.left, ?_, ?_, ?_, fun _ _ ↦ ⟨failed, hthread⟩, ?_, ?_, ?_⟩, rfl, failed,
      hthread⟩
    · simpa using h.fell
    · simpa using h.told
    · rw [List.countP_append, hjoins, if_pos ⟨hloop, rfl⟩]
      rfl
    · intro hnone
      exact ⟨(h.absent hnone).1, rfl⟩
    · exact along_snoc.mpr ⟨h.last, by simp⟩
    · exact along_snoc.mpr ⟨h.joined, by simp⟩
  · exact absurd hjoin (by simp)

theorem run (h : Traced evs p) (hthread : p.thread = .ready) (hstopped : p.stopped = false) :
    Traced (evs ++ [.running]) { p with status := .PRO_RUNNING, thread := .testing } := by
  have hrunning := h.event .running (by simp) (by simp) rfl (by simp) (by simp)
  have hfell := hrunning.fell
  rw [hthread] at hfell
  refine ⟨?_, by simp [ThreadPc.hasLeft], ?_, hrunning.told, hrunning.joins, ?_, ?_, hrunning.last,
    hrunning.joined⟩
  · rw [hstopped]
    rfl
  · simpa using hfell
  · intro hloop hjoined
    obtain ⟨failed, hended⟩ := h.waited hloop hjoined
    rw [hthread] at hended
    exact absurd hended (by simp)
  · intro hnone
    have habsent := (h.absent hnone).1
    rw [hthread] at habsent
    exact absurd habsent (by simp)

theorem leave (h : Traced evs p) (hthread : p.thread = .leaving) :
    Traced evs { p with status := .PRO_STOPPED, thread := .falling } := by
  have hstopped := h.left (.inl hthread)
  have hfell := h.fell
  rw [hthread] at hfell
  refine ⟨rfl, fun _ ↦ hstopped, ?_, h.told, h.joins, ?_, ?_, h.last, h.joined⟩
  · simpa using hfell
  · intro hloop hjoined
    obtain ⟨failed, hended⟩ := h.waited hloop hjoined
    rw [hthread] at hended
    exact absurd hended (by simp)
  · intro hnone
    have habsent := (h.absent hnone).1
    rw [hthread] at habsent
    exact absurd habsent (by simp)

theorem fall (h : Traced evs p) (hthread : p.thread = .falling) :
    Traced (evs ++ [.undefined]) { p with thread := .ended false } := by
  have hstatus := h.status
  rw [hthread] at hstatus
  have hstopped : p.stopped = true := h.left (.inr (by simp [hthread, ThreadPc.hasLeft]))
  refine ⟨hstatus, fun _ ↦ hstopped, ?_, ?_, ?_, fun _ _ ↦ ⟨false, rfl⟩, ?_, ?_, ?_⟩
  · exact iff_of_true (List.mem_append_right _ List.mem_cons_self) rfl
  · simpa using h.told
  · rw [List.countP_append]
    exact h.joins
  · intro hnone
    have habsent := (h.absent hnone).1
    rw [hthread] at habsent
    exact absurd habsent (by simp)
  · exact along_snoc.mpr ⟨h.last, by simp⟩
  · exact along_snoc.mpr ⟨h.joined, by simp⟩

/-- The test of `while` finds that a thread is to run if and only if nobody has told it to stop. -/
theorem running_iff (h : Traced evs p) (hthread : p.thread = .testing) :
    p.status = .PRO_RUNNING ↔ p.stopped = false := by
  rw [h.status, hthread]
  cases p.stopped <;> decide

theorem threadStep (h : Traced evs p) (hguard : p.BeginsInTime)
    (hstep : p.ThreadStep init p' es) :
    Traced (evs ++ es) p' ∧ p'.pLoop = p.pLoop ∧ p'.joinable = p.joinable ∧
      p'.stopped = p.stopped ∧ p'.dtor = p.dtor := by
  have hstatus := h.status
  cases hstep with
  | starts hthread =>
    rw [hthread] at hstatus
    rw [List.append_nil]
    refine ⟨h.of_thread ?_ ?_ ?_ (by simp [hthread]) (by simp [hthread]), rfl, rfl, rfl, rfl⟩
    · rw [hstatus]
      cases init <;> rfl
    · cases init <;> simp [ThreadPc.hasLeft]
    · cases init <;> simp
  | runs hthread => exact ⟨h.run hthread (hguard hthread), rfl, rfl, rfl, rfl⟩
  | iterates hthread hrunning =>
    rw [hthread] at hstatus
    have hstopped := (h.running_iff hthread).mp hrunning
    have hiter := h.event .iteration (by simp) (by simp) rfl (fun _ ↦ hstopped) (by simp)
    refine ⟨hiter.of_thread ?_ (by simp [ThreadPc.hasLeft]) (by simp) (by simp [hthread])
      (by simp [hthread]), rfl, rfl, rfl, rfl⟩
    rw [hstatus]
    rfl
  | leaves hthread hrunning =>
    rw [hthread] at hstatus
    have hstopped : p.stopped = true := by
      rw [Ne, h.running_iff hthread, Bool.not_eq_false] at hrunning
      exact hrunning
    rw [List.append_nil]
    refine ⟨h.of_thread ?_ (fun _ ↦ hstopped) (by simp) (by simp [hthread]) (by simp [hthread]),
      rfl, rfl, rfl, rfl⟩
    rw [hstatus, hstopped]
    rfl
  | returns hthread =>
    rw [hthread] at hstatus
    rw [List.append_nil]
    refine ⟨h.of_thread ?_ (by simp [ThreadPc.hasLeft]) (by simp) (by simp [hthread])
      (by simp [hthread]), rfl, rfl, rfl, rfl⟩
    rw [hstatus]
    rfl
  | stores hthread =>
    rw [List.append_nil]
    exact ⟨h.leave hthread, rfl, rfl, rfl, rfl⟩
  | falls hthread => exact ⟨h.fall hthread, rfl, rfl, rfl, rfl⟩

end Traced

end Proc

/-! ## Who owns it -/

/-- How far the owner of a processor is with it. -/
inductive Stage
  /-- It has an owner of its own. -/
  | alone
  /-- The scheduler has not started it. -/
  | fresh
  /-- The scheduler has started it. -/
  | up
  /-- The scheduler has told it to stop. -/
  | told
  /-- The scheduler has joined it, and is in its destructor. -/
  | dying
  /-- The scheduler has deleted it. -/
  | gone
deriving DecidableEq

/-- What holds of a processor at a stage. -/
def Proc.At (p : Proc) : Stage → Prop
  | .alone =>
    match p.dtor with
    | .idle | .test1 => p.joinable = p.pLoop ∧ p.stopped = false
    | .stop =>
      p.pLoop = true ∧ p.joinable = true ∧ p.stopped = false ∧ p.thread.hasBegun = true
    | .test2 stopped =>
      p.joinable = p.pLoop ∧ p.stopped = stopped ∧
        (stopped = true → p.pLoop = true ∧ p.thread.hasBegun = true)
    | .join => p.pLoop = true ∧ p.joinable = true ∧ p.thread.hasBegun = true
    | .delete | .gone => p.joinable = false ∧ (p.pLoop = true → p.thread = .ended false)
  | .fresh => p.pLoop = false ∧ p.stopped = false ∧ p.dtor = .idle
  | .up => p.pLoop = true ∧ p.joinable = true ∧ p.stopped = false ∧ p.dtor = .idle
  | .told => p.pLoop = true ∧ p.joinable = true ∧ p.stopped = true ∧ p.dtor = .idle
  | .dying => p.pLoop = true ∧ p.joinable = false ∧ p.stopped = true ∧
      (p.dtor = .idle ∨ p.dtor = .test1 ∨ p.dtor = .test2 false ∨
        p.dtor = .delete ∧ p.thread = .ended false)
  | .gone => p.pLoop = true ∧ p.joinable = false ∧ p.stopped = true ∧ p.dtor = .gone ∧
      p.thread = .ended false

namespace Proc

variable {p p' : Proc} {evs es : List ProcEvent} {stage : Stage} {init : Bool}

theorem ThreadStep.hasBegun (hstep : p.ThreadStep init p' es) (hbegun : p.thread.hasBegun = true) :
    p'.thread.hasBegun = true := by
  cases hstep with
  | starts hthread => simp [hthread, ThreadPc.hasBegun] at hbegun
  | runs | iterates | leaves | returns | stores | falls => rfl

theorem ThreadStep.ne_ended (hstep : p.ThreadStep init p' es) (hfalling : p.thread ≠ .falling) :
    p'.thread ≠ .ended false := by
  cases hstep with
  | starts => cases init <;> simp
  | runs | iterates | leaves | returns | stores => simp
  | falls hthread => exact absurd hthread hfalling

theorem ThreadStep.not_ended (hstep : p.ThreadStep init p' es) : p.thread ≠ .ended false := by
  cases hstep <;> simp_all

theorem At.congr (h : p.At stage) (hloop : p'.pLoop = p.pLoop)
    (hjoinable : p'.joinable = p.joinable) (hstopped : p'.stopped = p.stopped)
    (hdtor : p'.dtor = p.dtor) (hstep : p.ThreadStep init p' es) : p'.At stage := by
  have hbegun := hstep.hasBegun
  have hended := hstep.not_ended
  cases stage with
  | alone =>
    simp only [At, hloop, hjoinable, hstopped, hdtor] at h ⊢
    cases hat : p.dtor with
    | idle | test1 => simpa only [hat] using h
    | stop =>
      simp only [hat] at h ⊢
      exact ⟨h.1, h.2.1, h.2.2.1, hbegun h.2.2.2⟩
    | test2 stopped =>
      simp only [hat] at h ⊢
      exact ⟨h.1, h.2.1, fun htold ↦ ⟨(h.2.2 htold).1, hbegun (h.2.2 htold).2⟩⟩
    | join =>
      simp only [hat] at h ⊢
      exact ⟨h.1, h.2.1, hbegun h.2.2⟩
    | delete | gone =>
      simp only [hat] at h ⊢
      exact ⟨h.1, fun hstarted ↦ absurd (h.2 hstarted) hended⟩
  | fresh | up | told => simpa only [At, hloop, hjoinable, hstopped, hdtor] using h
  | dying =>
    simp only [At, hloop, hjoinable, hstopped, hdtor] at h ⊢
    obtain ⟨hloop, hjoined, hstopped, hidle | htest1 | htest2 | hdelete⟩ := h
    · exact ⟨hloop, hjoined, hstopped, .inl hidle⟩
    · exact ⟨hloop, hjoined, hstopped, .inr (.inl htest1)⟩
    · exact ⟨hloop, hjoined, hstopped, .inr (.inr (.inl htest2))⟩
    · exact absurd hdelete.2 hended
  | gone => exact absurd h.2.2.2.2 hended

theorem Traced.delete (h : Traced evs p) (hjoined : p.joinable = false) :
    Traced (evs ++ if p.pLoop then [.delete (!p.joinable)] else []) { p with dtor := .gone } := by
  split
  · next hloop =>
    refine (h.event _ (by simp) (by simp) rfl (by simp) ?_).of_dtor .gone
    rintro valid hdelete
    obtain rfl := ProcEvent.delete.inj hdelete
    exact ⟨by simp [hjoined], hloop, hjoined⟩
  · rw [List.append_nil]
    exact h.of_dtor .gone

/-- A processor that has not been started does not look as if it were running or stopping, unless it
has been told to stop. -/
theorem Traced.pLoop_eq (h : Traced evs p) (hstopped : p.stopped = false)
    (hstatus : p.status ≠ .PRO_STOPPED) : p.pLoop = true := by
  by_contra hne
  rw [Bool.not_eq_true] at hne
  rw [h.status, (h.absent hne).1, hstopped] at hstatus
  exact hstatus rfl

/-- The second test of a destructor that an owner of its own has called, in time, finds out whether
there is a thread to join. -/
theorem Traced.test2_alone (h : Traced evs p) {stopped : Bool} (hdtor : p.dtor = .test2 stopped)
    (hat : p.At .alone) (hguard : p.TestsInTime false) :
    Proc.At { p with dtor := if p.status = .PRO_STOPPING then .join else .delete } .alone := by
  simp only [At, hdtor] at hat
  simp only [TestsInTime, DtorPc.InTime, hdtor, Bool.false_eq_true, if_false] at hguard
  obtain ⟨hjoinable, hstopped, hloop⟩ := hat
  split
  · next hstopping =>
    have hstarted : p.pLoop = true := by
      cases stopped with
      | true => exact (hloop rfl).1
      | false => exact h.pLoop_eq hstopped (by simp [hstopping])
    exact ⟨hstarted, hjoinable.trans hstarted, (hloop (hguard hstarted).1).2⟩
  · next hstopping =>
    cases hstarted : p.pLoop with
    | false => exact ⟨hjoinable.trans hstarted, fun htrue ↦ by simp at htrue⟩
    | true =>
      -- a thread that has been told to stop in time, and has not left its loop, is seen stopping
      obtain ⟨rfl, hthread⟩ := hguard hstarted
      have hstatus := h.status
      rw [hstopped, ThreadPc.expected_told hthread] at hstatus
      exact absurd hstatus hstopping

theorem Traced.dtorStep_alone (h : Traced evs p) (hat : p.At .alone)
    (hguard : p.TestsInTime false) (hstep : p.dtorStep = some (p', es)) :
    Traced (evs ++ es) p' ∧ p'.At .alone := by
  cases hdtor : p.dtor with
  | idle =>
    simp only [Proc.dtorStep, hdtor] at hstep
    obtain ⟨rfl, rfl⟩ := Prod.mk.inj (Option.some.inj hstep)
    simp only [At, hdtor] at hat
    rw [List.append_nil]
    exact ⟨h.of_dtor _, hat⟩
  | test1 =>
    simp only [Proc.dtorStep, hdtor] at hstep
    obtain ⟨rfl, rfl⟩ := Prod.mk.inj (Option.some.inj hstep)
    simp only [At, hdtor] at hat
    rw [List.append_nil]
    refine ⟨h.of_dtor _, ?_⟩
    split
    · next hrunning =>
      have hloop := h.pLoop_eq hat.2 (by simp [hrunning])
      have hbegun := ThreadPc.hasBegun_of_expected (h.status.symm.trans hrunning)
      exact ⟨hloop, hat.1.trans hloop, hat.2, hbegun⟩
    · exact ⟨hat.1, hat.2, fun hne ↦ absurd hne (by decide)⟩
  | stop =>
    simp only [Proc.dtorStep, hdtor] at hstep
    obtain ⟨rfl, rfl⟩ := Prod.mk.inj (Option.some.inj hstep)
    simp only [At, hdtor] at hat
    obtain ⟨hloop, hjoinable, hstopped, hbegun⟩ := hat
    exact ⟨(h.stop hstopped).of_dtor _, hjoinable.trans hloop.symm, rfl, fun _ ↦ ⟨hloop, hbegun⟩⟩
  | test2 stopped =>
    simp only [Proc.dtorStep, hdtor] at hstep
    obtain ⟨rfl, rfl⟩ := Prod.mk.inj (Option.some.inj hstep)
    rw [List.append_nil]
    exact ⟨h.of_dtor _, h.test2_alone hdtor hat hguard⟩
  | join =>
    simp only [Proc.dtorStep, hdtor] at hstep
    obtain ⟨⟨p₁, es₁⟩, hjoin, hpair⟩ := Option.map_eq_some_iff.mp hstep
    obtain ⟨rfl, rfl⟩ := Prod.mk.inj hpair
    simp only [At, hdtor] at hat
    obtain ⟨htraced, rfl, failed, hended⟩ := h.join hat.1 hat.2.1 hjoin
    -- a thread that has begun its loop has not failed
    have hbegun := hat.2.2
    rw [hended] at hbegun
    cases failed with
    | false => exact ⟨htraced.of_dtor _, rfl, fun _ ↦ hended⟩
    | true => exact absurd hbegun (by decide)
  | delete =>
    simp only [Proc.dtorStep, hdtor] at hstep
    obtain ⟨rfl, rfl⟩ := Prod.mk.inj (Option.some.inj hstep)
    simp only [At, hdtor] at hat
    exact ⟨h.delete hat.1, hat⟩
  | gone => simp [Proc.dtorStep, hdtor] at hstep

theorem Traced.dtorStep_dying (h : Traced evs p) (hat : p.At .dying)
    (hguard : p.TestsInTime true) (hstep : p.dtorStep = some (p', es)) :
    Traced (evs ++ es) p' ∧ p'.At (if p'.dtor = .gone then .gone else .dying) := by
  obtain ⟨hloop, hjoined, hstopped, hdtor⟩ := hat
  obtain ⟨failed, hended⟩ := h.waited hloop hjoined
  have hstatus := h.status
  rw [hended, hstopped] at hstatus
  rw [Proc.dtorStep] at hstep
  rcases hdtor with hdtor | hdtor | hdtor | hdtor
  · simp only [hdtor, Option.some.injEq, Prod.mk.injEq] at hstep
    obtain ⟨rfl, rfl⟩ := hstep
    rw [List.append_nil, if_neg (by simp)]
    exact ⟨h.of_dtor _, hloop, hjoined, hstopped, .inr (.inl rfl)⟩
  · have hne : p.status ≠ .PRO_RUNNING := h.status_ne hstopped
    simp only [hdtor, if_neg hne, Option.some.injEq, Prod.mk.injEq] at hstep
    obtain ⟨rfl, rfl⟩ := hstep
    rw [List.append_nil, if_neg (by simp)]
    exact ⟨h.of_dtor _, hloop, hjoined, hstopped, .inr (.inr (.inl rfl))⟩
  · -- the thread has left its loop, and stored that it has
    simp only [TestsInTime, DtorPc.InTime, hdtor, if_true] at hguard
    have hfailed : failed = false := by
      cases failed with
      | false => rfl
      | true => exact absurd hended (hguard hloop)
    subst hfailed
    have hne : p.status ≠ .PRO_STOPPING := by
      rw [hstatus]
      decide
    simp only [hdtor, if_neg hne, Option.some.injEq, Prod.mk.injEq] at hstep
    obtain ⟨rfl, rfl⟩ := hstep
    rw [List.append_nil, if_neg (by simp)]
    exact ⟨h.of_dtor _, hloop, hjoined, hstopped, .inr (.inr (.inr ⟨rfl, hended⟩))⟩
  · simp only [hdtor.1, Option.some.injEq, Prod.mk.injEq] at hstep
    obtain ⟨rfl, rfl⟩ := hstep
    exact ⟨h.delete hjoined, hloop, hjoined, hstopped, rfl, hdtor.2⟩

end Proc

/-! ## All processors -/

/-- How far an owner with `n` processors is with processor `i`. -/
def Owner.stage (n : ℕ) : Owner → ℕ → Stage
  | .alone, _ => .alone
  | .launching j, i => if i < j then .up else .fresh
  | .up, i => if i < n then .up else .fresh
  | .stopping j, i => if i < j then .told else if i < n then .up else .fresh
  | .joining j, i => if i < j then .gone else if i < n then .told else .fresh
  | .deleting j, i =>
    if i < j then .gone else if i = j then .dying else if i < n then .told else .fresh
  | .gone, i => if i < n then .gone else .fresh

/-- The owner does not get past its processors. -/
def Owner.Within (n : ℕ) : Owner → Prop
  | .launching j | .stopping j | .joining j => j ≤ n
  | .deleting j => j < n
  | .alone | .up | .gone => True

/-- What holds of the processors at any time. -/
structure Orderly (n : ℕ) (evs : List (ℕ × ProcEvent)) (s : Teardown) : Prop where
  /-- The owner is with one of its processors. -/
  within : s.owner.Within n
  /-- Each processor is what has happened to it. -/
  traced : ∀ i, (s.procs i).Traced (eventsAt i evs)
  /-- Each processor is at its stage. -/
  staged : ∀ i, (s.procs i).At (s.owner.stage n i)

section System

variable {n k : ℕ} {s s' s₀ : Teardown} {a : TeardownAct} {evs es : List (ℕ × ProcEvent)}
  {tr : List (TeardownAct × List (ℕ × ProcEvent))}

theorem eventsAt_append (i : ℕ) (evs es : List (ℕ × ProcEvent)) :
    eventsAt i (evs ++ es) = eventsAt i evs ++ eventsAt i es := List.filterMap_append

theorem eventsAt_self (i : ℕ) (es : List ProcEvent) :
    eventsAt i (es.map fun ev ↦ (i, ev)) = es := by
  simp [eventsAt, List.filterMap_map]

theorem eventsAt_other {i : ℕ} (h : k ≠ i) (es : List ProcEvent) :
    eventsAt k (es.map fun ev ↦ (i, ev)) = [] := by
  simp [eventsAt, List.filterMap_map, h.symm]

theorem lt_succ_of_ne {j : ℕ} (hk : k ≠ j) : k < j + 1 ↔ k < j := by omega

theorem stage_stopping (n k : ℕ) : (Owner.joining 0).stage n k = (Owner.stopping n).stage n k := by
  by_cases hk : k < n <;> simp [Owner.stage, hk]

theorem stage_joining (n k : ℕ) : Owner.gone.stage n k = (Owner.joining n).stage n k := by
  by_cases hk : k < n <;> simp [Owner.stage, hk]

theorem Orderly.act (h : Orderly n evs s) (i : ℕ) (owner : Owner) (r : Proc × List ProcEvent)
    (hwithin : owner.Within n)
    (hstage : ∀ k, k ≠ i → owner.stage n k = s.owner.stage n k)
    (htraced : r.1.Traced (eventsAt i evs ++ r.2)) (hat : r.1.At (owner.stage n i)) :
    Orderly n (evs ++ (s.act i owner r).2) (s.act i owner r).1 := by
  have hself : (s.act i owner r).1.procs i = r.1 := Function.update_self ..
  have hother (k : ℕ) (hk : k ≠ i) : (s.act i owner r).1.procs k = s.procs k :=
    Function.update_of_ne hk ..
  refine ⟨hwithin, ?_, ?_⟩
  · intro k
    rw [eventsAt_append]
    by_cases hk : k = i
    · subst hk
      rw [hself, Teardown.act, eventsAt_self]
      exact htraced
    · rw [hother k hk, Teardown.act, eventsAt_other hk, List.append_nil]
      exact h.traced k
  · intro k
    show ((s.act i owner r).1.procs k).At (owner.stage n k)
    by_cases hk : k = i
    · subst hk
      rw [hself]
      exact hat
    · rw [hother k hk, hstage k hk]
      exact h.staged k

theorem Orderly.of_owner (h : Orderly n evs s) {owner : Owner} (hwithin : owner.Within n)
    (hstage : ∀ k, owner.stage n k = s.owner.stage n k) :
    Orderly n (evs ++ []) { s with owner } := by
  rw [List.append_nil]
  refine ⟨hwithin, h.traced, ?_⟩
  intro k
  show (s.procs k).At (owner.stage n k)
  rw [hstage k]
  exact h.staged k

theorem orderly_init (h₀ : (Teardown.machine n).init s₀) : Orderly n [] s₀ := by
  rcases h₀ with rfl | rfl
  · exact ⟨trivial, fun _ ↦ Proc.traced_created, fun _ ↦ ⟨rfl, rfl⟩⟩
  · exact ⟨Nat.zero_le n, fun _ ↦ Proc.traced_created, fun _ ↦ ⟨rfl, rfl, rfl⟩⟩

section Scheduler

variable {j : ℕ} {r : Proc × List ProcEvent}

theorem Orderly.launch (h : Orderly n evs s) (howner : s.owner = .launching j) (hj : j < n) :
    Orderly n (evs ++ (s.act j (.launching (j + 1)) ((s.procs j).loop, [.loop])).2)
      (s.act j (.launching (j + 1)) ((s.procs j).loop, [.loop])).1 := by
  have hat := h.staged j
  rw [howner, Owner.stage, if_neg (Nat.lt_irrefl j)] at hat
  apply h.act j (.launching (j + 1)) _ hj
  · intro k hk
    simp only [howner, Owner.stage, lt_succ_of_ne hk]
  · exact (h.traced j).loop hat.1
  · rw [Owner.stage, if_pos (Nat.lt_succ_self j)]
    exact ⟨rfl, rfl, hat.2⟩

theorem Orderly.stop (h : Orderly n evs s) (howner : s.owner = .stopping j) (hj : j < n) :
    Orderly n (evs ++ (s.act j (.stopping (j + 1)) ((s.procs j).stop, [.stop])).2)
      (s.act j (.stopping (j + 1)) ((s.procs j).stop, [.stop])).1 := by
  have hat := h.staged j
  rw [howner, Owner.stage, if_neg (Nat.lt_irrefl j), if_pos hj] at hat
  obtain ⟨hloop, hjoinable, hstopped, hdtor⟩ := hat
  apply h.act j (.stopping (j + 1)) _ hj
  · intro k hk
    simp only [howner, Owner.stage, lt_succ_of_ne hk]
  · exact (h.traced j).stop hstopped
  · rw [Owner.stage, if_pos (Nat.lt_succ_self j)]
    exact ⟨hloop, hjoinable, rfl, hdtor⟩

theorem Orderly.join (h : Orderly n evs s) (howner : s.owner = .joining j) (hj : j < n)
    (hjoin : (s.procs j).join = some r) :
    Orderly n (evs ++ (s.act j (.deleting j) r).2) (s.act j (.deleting j) r).1 := by
  obtain ⟨p', es'⟩ := r
  have hat := h.staged j
  rw [howner, Owner.stage, if_neg (Nat.lt_irrefl j), if_pos hj] at hat
  obtain ⟨hloop, hjoinable, hstopped, hdtor⟩ := hat
  obtain ⟨htraced, rfl, -⟩ := (h.traced j).join hloop hjoinable hjoin
  apply h.act j (.deleting j) _ hj
  · intro k hk
    simp only [howner, Owner.stage, if_neg hk]
  · exact htraced
  · rw [Owner.stage, if_neg (Nat.lt_irrefl j), if_pos rfl]
    exact ⟨hloop, rfl, hstopped, .inl hdtor⟩

theorem Orderly.delete (h : Orderly n evs s) (howner : s.owner = .deleting j)
    (hguard : (s.procs j).TestsInTime true) (hdtor : (s.procs j).dtorStep = some r) :
    Orderly n
      (evs ++ (s.act j (if r.1.dtor = .gone then .joining (j + 1) else .deleting j) r).2)
      (s.act j (if r.1.dtor = .gone then .joining (j + 1) else .deleting j) r).1 := by
  obtain ⟨p', es'⟩ := r
  have hwithin := h.within
  rw [howner] at hwithin
  have hat := h.staged j
  rw [howner, Owner.stage, if_neg (Nat.lt_irrefl j), if_pos rfl] at hat
  obtain ⟨htraced, hat'⟩ := (h.traced j).dtorStep_dying hat hguard hdtor
  by_cases hgone : p'.dtor = .gone
  · rw [if_pos hgone] at hat' ⊢
    apply h.act j (.joining (j + 1)) _ hwithin
    · intro k hk
      simp only [howner, Owner.stage, lt_succ_of_ne hk, if_neg hk]
    · exact htraced
    · rw [Owner.stage, if_pos (Nat.lt_succ_self j)]
      exact hat'
  · rw [if_neg hgone] at hat' ⊢
    apply h.act j (.deleting j) _ hwithin
    · intro k hk
      rw [howner]
    · exact htraced
    · rw [Owner.stage, if_neg (Nat.lt_irrefl j), if_pos rfl]
      exact hat'

theorem Orderly.ownerStep (h : Orderly n evs s) (hguard : s.InTime .owner)
    (hs : s.ownerStep n = some (s', es)) : Orderly n (evs ++ es) s' := by
  have hwithin := h.within
  rw [Teardown.InTime] at hguard
  cases howner : s.owner with
  | alone => simp [Teardown.ownerStep, howner] at hs
  | launching j =>
    simp only [Teardown.ownerStep, howner] at hs
    rw [howner] at hwithin
    split at hs
    · next hj =>
      obtain ⟨rfl, rfl⟩ := Prod.mk.inj (Option.some.inj hs)
      exact h.launch howner hj
    · next hj =>
      obtain ⟨rfl, rfl⟩ := Prod.mk.inj (Option.some.inj hs)
      have heq : j = n := Nat.le_antisymm hwithin (Nat.le_of_not_lt hj)
      refine h.of_owner trivial ?_
      intro k
      rw [howner, heq]
      rfl
  | up =>
    simp only [Teardown.ownerStep, howner] at hs
    obtain ⟨rfl, rfl⟩ := Prod.mk.inj (Option.some.inj hs)
    refine h.of_owner (Nat.zero_le n) ?_
    intro k
    rw [howner]
    rfl
  | stopping j =>
    simp only [Teardown.ownerStep, howner] at hs
    rw [howner] at hwithin
    split at hs
    · next hj =>
      obtain ⟨rfl, rfl⟩ := Prod.mk.inj (Option.some.inj hs)
      exact h.stop howner hj
    · next hj =>
      obtain ⟨rfl, rfl⟩ := Prod.mk.inj (Option.some.inj hs)
      have heq : j = n := Nat.le_antisymm hwithin (Nat.le_of_not_lt hj)
      refine h.of_owner (Nat.zero_le n) ?_
      intro k
      rw [howner, heq, stage_stopping]
  | joining j =>
    simp only [Teardown.ownerStep, howner] at hs
    rw [howner] at hwithin
    split at hs
    · next hj =>
      obtain ⟨r, hjoin, hact⟩ := Option.map_eq_some_iff.mp hs
      obtain ⟨rfl, rfl⟩ := Prod.mk.inj hact
      exact h.join howner hj hjoin
    · next hj =>
      obtain ⟨rfl, rfl⟩ := Prod.mk.inj (Option.some.inj hs)
      have heq : j = n := Nat.le_antisymm hwithin (Nat.le_of_not_lt hj)
      refine h.of_owner trivial ?_
      intro k
      rw [howner, heq, stage_joining]
  | deleting j =>
    simp only [Teardown.ownerStep, howner] at hs
    rw [howner] at hguard
    obtain ⟨r, hdtor, hact⟩ := Option.map_eq_some_iff.mp hs
    obtain ⟨rfl, rfl⟩ := Prod.mk.inj hact
    exact h.delete howner hguard hdtor
  | gone => simp [Teardown.ownerStep, howner] at hs

end Scheduler

theorem Orderly.step (h : Orderly n evs s) (hguard : s.InTime a)
    (hs : s.step n a = some (s', es)) : Orderly n (evs ++ es) s' := by
  cases a with
  | thread i init =>
    obtain ⟨⟨p', es'⟩, hthread, hact⟩ := Option.map_eq_some_iff.mp hs
    obtain ⟨rfl, rfl⟩ := Prod.mk.inj hact
    have hstep := Proc.ThreadStep.of_step hthread
    obtain ⟨htraced, hloop, hjoinable, hstopped, hdtor⟩ := (h.traced i).threadStep hguard hstep
    exact h.act i s.owner (p', es') h.within (fun _ _ ↦ rfl) htraced
      ((h.staged i).congr hloop hjoinable hstopped hdtor hstep)
  | owner => exact h.ownerStep hguard hs
  | loop i =>
    rw [Teardown.step, Option.ite_none_right_eq_some, Option.some_inj] at hs
    obtain ⟨⟨howner, hnone, hidle⟩, hact⟩ := hs
    obtain ⟨rfl, rfl⟩ := Prod.mk.inj hact
    have hat := h.staged i
    simp only [howner, Owner.stage, Proc.At, hidle] at hat
    refine h.act i s.owner (_, [.loop]) h.within (fun _ _ ↦ rfl) ((h.traced i).loop hnone) ?_
    simp only [howner, Owner.stage, Proc.At, Proc.loop, hidle]
    exact ⟨trivial, hat.2⟩
  | destroy i =>
    rw [Teardown.step, Option.ite_none_right_eq_some] at hs
    obtain ⟨howner, hmap⟩ := hs
    obtain ⟨⟨p', es'⟩, hdtor, hact⟩ := Option.map_eq_some_iff.mp hmap
    obtain ⟨rfl, rfl⟩ := Prod.mk.inj hact
    have hat := h.staged i
    rw [howner] at hat
    obtain ⟨htraced, hat'⟩ := (h.traced i).dtorStep_alone hat hguard hdtor
    refine h.act i s.owner (p', es') h.within (fun _ _ ↦ rfl) htraced ?_
    rw [howner]
    exact hat'

theorem orderly_run (h₀ : (Teardown.machine n).init s₀)
    (h : Run (Teardown.machine n) Teardown.InTime s₀ tr s) : Orderly n (events tr) s := by
  refine h.history (P := fun tr s ↦ Orderly n (events tr) s) (orderly_init h₀) ?_
  intro tr s a s' es _ hP hguard hs
  rw [events_append, events_singleton]
  exact hP.step hguard hs

/-- What holds of stopping and joining in time, if the undefined end does as a return would. -/
theorem stopsAndJoins_of_inTime (h₀ : (Teardown.machine n).init s₀)
    (h : Run (Teardown.machine n) Teardown.InTime s₀ tr s) (i : ℕ) :
    StopsAndJoins (eventsAt i (events tr)) (s.procs i) :=
  ((orderly_run h₀ h).traced i).stopsAndJoins

/-- The destructor of a processor that has been started does not return before the lambda has flowed
off its end. -/
theorem undefined_of_gone (h₀ : (Teardown.machine n).init s₀)
    (h : Run (Teardown.machine n) Teardown.InTime s₀ tr s) {i : ℕ}
    (hloop : (s.procs i).pLoop = true) (hgone : (s.procs i).dtor = .gone) :
    .undefined ∈ eventsAt i (events tr) := by
  have horderly := orderly_run h₀ h
  have hat := horderly.staged i
  rw [(horderly.traced i).fell]
  cases hstage : s.owner.stage n i with
  | alone =>
    simp only [hstage, Proc.At, hgone] at hat
    exact hat.2 hloop
  | fresh | up | told | dying => simp [hstage, Proc.At, hgone, hloop] at hat
  | gone =>
    rw [hstage] at hat
    exact hat.2.2.2.2

/-- No loop thread has flowed off its end. -/
def Teardown.Unfinished (s : Teardown) : Prop := ∀ i, (s.procs i).thread ≠ .ended false

theorem Teardown.Unfinished.act (h : s.Unfinished) (i : ℕ) (owner : Owner)
    {r : Proc × List ProcEvent} (hr : r.1.thread ≠ .ended false) :
    (s.act i owner r).1.Unfinished :=
  (Function.forall_update_iff s.procs fun _ p ↦ p.thread ≠ .ended false).mpr ⟨hr, fun k _ ↦ h k⟩

theorem Proc.thread_of_join {p p' : Proc} {es : List ProcEvent}
    (hjoin : p.join = some (p', es)) : p'.thread = p.thread := by
  rw [join] at hjoin
  split at hjoin
  · obtain ⟨rfl, rfl⟩ := Prod.mk.inj (Option.some.inj hjoin)
    rfl
  · exact absurd hjoin (by simp)

theorem Proc.thread_of_dtorStep {p p' : Proc} {es : List ProcEvent}
    (hstep : p.dtorStep = some (p', es)) : p'.thread = p.thread := by
  rw [dtorStep.eq_def] at hstep
  cases hdtor : p.dtor with
  | join =>
    simp only [hdtor] at hstep
    obtain ⟨⟨p₁, es₁⟩, hjoin, hpair⟩ := Option.map_eq_some_iff.mp hstep
    obtain ⟨rfl, rfl⟩ := Prod.mk.inj hpair
    have hthread := thread_of_join hjoin
    exact hthread
  | gone => simp [hdtor] at hstep
  | idle | test1 | stop | test2 stopped | delete =>
    simp only [hdtor] at hstep
    obtain ⟨rfl, rfl⟩ := Prod.mk.inj (Option.some.inj hstep)
    rfl

theorem Teardown.Unfinished.ownerStep (h : s.Unfinished) (hs : s.ownerStep n = some (s', es)) :
    s'.Unfinished := by
  rw [Teardown.ownerStep.eq_def] at hs
  cases howner : s.owner with
  | launching j =>
    simp only [howner] at hs
    split at hs <;> obtain ⟨rfl, rfl⟩ := Prod.mk.inj (Option.some.inj hs)
    · exact h.act j _ (by simp [Proc.loop])
    · exact h
  | stopping j =>
    simp only [howner] at hs
    split at hs <;> obtain ⟨rfl, rfl⟩ := Prod.mk.inj (Option.some.inj hs)
    · exact h.act j _ (h j)
    · exact h
  | joining j =>
    simp only [howner] at hs
    split at hs
    · obtain ⟨⟨p', es'⟩, hjoin, hact⟩ := Option.map_eq_some_iff.mp hs
      obtain ⟨rfl, rfl⟩ := Prod.mk.inj hact
      exact h.act j _ (Proc.thread_of_join hjoin ▸ h j)
    · obtain ⟨rfl, rfl⟩ := Prod.mk.inj (Option.some.inj hs)
      exact h
  | deleting j =>
    simp only [howner] at hs
    obtain ⟨⟨p', es'⟩, hdtor, hact⟩ := Option.map_eq_some_iff.mp hs
    obtain ⟨rfl, rfl⟩ := Prod.mk.inj hact
    exact h.act j _ (Proc.thread_of_dtorStep hdtor ▸ h j)
  | up =>
    simp only [howner] at hs
    obtain ⟨rfl, rfl⟩ := Prod.mk.inj (Option.some.inj hs)
    exact h
  | alone | gone => simp [howner] at hs

theorem Teardown.Unfinished.step (h : s.Unfinished) (hguard : s.StaysDefined a)
    (hs : s.step n a = some (s', es)) : s'.Unfinished := by
  cases a with
  | thread i init =>
    obtain ⟨⟨p', es'⟩, hthread, hact⟩ := Option.map_eq_some_iff.mp hs
    obtain ⟨rfl, rfl⟩ := Prod.mk.inj hact
    exact h.act i _ ((Proc.ThreadStep.of_step hthread).ne_ended hguard)
  | owner => exact h.ownerStep hs
  | loop i =>
    rw [Teardown.step, Option.ite_none_right_eq_some, Option.some_inj] at hs
    obtain ⟨-, hact⟩ := hs
    obtain ⟨rfl, rfl⟩ := Prod.mk.inj hact
    exact h.act i _ (by simp [Proc.loop])
  | destroy i =>
    rw [Teardown.step, Option.ite_none_right_eq_some] at hs
    obtain ⟨⟨p', es'⟩, hdtor, hact⟩ := Option.map_eq_some_iff.mp hs.2
    obtain ⟨rfl, rfl⟩ := Prod.mk.inj hact
    exact h.act i _ (Proc.thread_of_dtorStep hdtor ▸ h i)

theorem unfinished_run (h₀ : (Teardown.machine n).init s₀)
    (h : Run (Teardown.machine n) Teardown.InOrder s₀ tr s) : s.Unfinished := by
  refine h.invariant ?_ ?_
  · rcases h₀ with rfl | rfl <;> simp [Teardown.Unfinished, Teardown.start, Proc.created]
  · intro s a s' es hP hguard hs
    exact hP.step hguard.2 hs

/-- **Shutdown.** For any number of processors and every interleaving of their loop threads with
those who tear them down, through the scheduler's destructor or the processor's alone: if loop
threads store that they run before they are told to stop, destructors come to their second test in
time, and no loop thread flows off the end of its lambda, then a processor that has been told to
stop does not run again and begins no further iteration, its thread is joined exactly once before it
is deleted, and nothing undefined happens.

By `undefined_of_gone` no destructor of a processor that has been started returns in such a run. -/
theorem shutsDown_of_inOrder (h₀ : (Teardown.machine n).init s₀)
    (h : Run (Teardown.machine n) Teardown.InOrder s₀ tr s) (i : ℕ) :
    ShutsDown (eventsAt i (events tr)) (s.procs i) := by
  have hinTime : Run (Teardown.machine n) Teardown.InTime s₀ tr s :=
    h.mono fun _ _ hguard ↦ hguard.1
  refine ⟨stopsAndJoins_of_inTime h₀ hinTime i, ?_⟩
  rw [((orderly_run h₀ hinTime).traced i).fell]
  exact unfinished_run h₀ h i

/-- A scheduler with one processor: its thread is stopped in its first iteration, and stores that it
has left its loop. -/
def stoppedInTime : List TeardownAct :=
  [.owner, .owner, .thread 0 true, .thread 0 true, .thread 0 true, .owner, .owner, .owner,
    .thread 0 true, .thread 0 true, .thread 0 true]

theorem shutsDown_of_inOrder_one :
    ∃ tr s, Run (Teardown.machine 1) Teardown.InOrder (.start (.launching 0)) tr s ∧
      (s.procs 0).thread = .falling ∧ (s.procs 0).status = .PRO_STOPPED ∧
      eventsAt 0 (events tr) = [.loop, .running, .iteration, .stop] ∧
      ShutsDown (eventsAt 0 (events tr)) (s.procs 0) := by
  have h := run_after (M := Teardown.machine 1) (C := Teardown.InOrder)
    (s := .start (.launching 0)) stoppedInTime
  exact ⟨_, _, h, by decide, by decide, by decide, shutsDown_of_inOrder (.inr rfl) h 0⟩

/-- The thread is told to stop before it stores that it runs: it runs for good. -/
theorem not_shutsDown_begins_late :
    ¬ ∀ (n : ℕ) (s₀ s : Teardown) (tr : List (TeardownAct × List (ℕ × ProcEvent))),
      (Teardown.machine n).init s₀ → Run (Teardown.machine n) Always s₀ tr s →
      ∀ i, ShutsDown (eventsAt i (events tr)) (s.procs i) := by
  intro h
  have hrun := run_after (M := Teardown.machine 1) (C := Always) (s := .start (.launching 0))
    [.owner, .owner, .thread 0 true, .owner, .owner, .thread 0 true]
  have hstays := (h 1 _ _ _ (.inr rfl) hrun 0).stays (by decide)
  exact absurd rfl hstays

end System

end Copnet
