import Copnet.Foundation.Transition
import Copnet.Scheduler.Selector
import Mathlib.Data.List.Count
import Mathlib.Data.List.Range

/-!
# The scheduler singleton

`Scheduler::getScheduler` makes the scheduler at its first call. It tests `pScher_` without the lock
first, and once more with it; the call that finds it null both times constructs the scheduler,
assigns the pointer, and only then starts one processor after the other.

The machine here is the threads inside of `getScheduler`, one step a statement. There is one
scheduler in all runs, and a call that took the lock returns it complete: `Known` says what a thread
knows wherever it is. A call that found the pointer without the lock knows nothing of the
processors, so that what it returns is complete depends on when it returns.
-/

open Transition

namespace Copnet

/-- Where a thread is in `getScheduler`. -/
inductive GetPc
  /-- In no call; the first step of a call is its unlocked test. -/
  | out
  /-- Before the lock. -/
  | locking
  /-- Before the second test. -/
  | locked
  /-- Before `new Scheduler()`. -/
  | creating
  /-- Before `pScher_ = `, with the scheduler `p`. -/
  | assigning (p : ℕ)
  /-- Before the call of `pScher_->startScheduler`. -/
  | calling
  /-- In `startScheduler` of the scheduler `p`, before `i < threadCnt` and `emplace_back`. -/
  | emplacing (p i : ℕ)
  /-- In `startScheduler` of the scheduler `p`, before `processors_[i]->loop()`. -/
  | starting (p i : ℕ)
  /-- Before the lock is released. -/
  | unlocking
  /-- Before the return; `fast` if the unlocked test has found a scheduler. -/
  | leaving (fast : Bool)
deriving DecidableEq

/-- What a step of `getScheduler` does. -/
inductive GetEvent
  /-- The unlocked test of `pScher_`. -/
  | tested (found : Bool)
  /-- `scherMtx_` is locked. -/
  | locked
  /-- The test under the lock. -/
  | retested (found : Bool)
  /-- `new Scheduler()`. -/
  | constructed (p : ℕ)
  /-- `pScher_ = p`. -/
  | assigned (p : ℕ)
  /-- `p->startScheduler(threadNums)`. -/
  | called (p : ℕ)
  /-- `processors_.emplace_back(new Processor(tid))`. -/
  | emplaced (p tid : ℕ)
  /-- `processors_[i]->loop()`, on the processor with this number. -/
  | looped (tid : Option ℕ)
  /-- `startScheduler` returns. -/
  | filled
  /-- `scherMtx_` is unlocked. -/
  | unlocked
  /-- `getScheduler` returns `ret`, whose `processors_` have these numbers. -/
  | returned (fast : Bool) (ret : Option ℕ) (processors : List ℕ)
deriving DecidableEq

def GetEvent.isEmplaced : GetEvent → Bool
  | .emplaced _ _ => true
  | _ => false

/-- The statics of `Scheduler`, the schedulers made, and where the threads are. -/
structure Singleton where
  /-- `pScher_`. -/
  pScher : Option ℕ
  /-- The thread that holds `scherMtx_`. -/
  scherMtx : Option ℕ
  /-- How many schedulers have been constructed; their numbers are those below. -/
  constructed : ℕ
  /-- `processors_` of each scheduler, by the numbers of the processors. -/
  processors : ℕ → List ℕ
  /-- Where each thread is. -/
  pc : ℕ → GetPc

namespace Singleton

variable (s : Singleton)

def start : Singleton := ⟨none, none, 0, fun _ ↦ [], fun _ ↦ .out⟩

def goto (t : ℕ) (pc : GetPc) : Singleton := { s with pc := Function.update s.pc t pc }

/-- What `pScher_->processors_` holds. -/
def held : List ℕ := s.pScher.elim [] s.processors

/-- The thread `t` takes its next step, where `threadNums` is `n`. -/
def step (n : ℕ) (t : ℕ) : Option (Singleton × List GetEvent) :=
  match s.pc t with
  | .out =>
    if s.pScher = none then some (s.goto t .locking, [.tested false])
    else some (s.goto t (.leaving true), [.tested true])
  | .locking =>
    if s.scherMtx = none then some ({ s with scherMtx := some t }.goto t .locked, [.locked])
    else none
  | .locked =>
    if s.pScher = none then some (s.goto t .creating, [.retested false])
    else some (s.goto t .unlocking, [.retested true])
  | .creating =>
    some ({ s with
        constructed := s.constructed + 1
        processors := Function.update s.processors s.constructed [] }.goto t
          (.assigning s.constructed),
      [.constructed s.constructed])
  | .assigning p => some ({ s with pScher := some p }.goto t .calling, [.assigned p])
  | .calling => s.pScher.map fun p ↦ (s.goto t (.emplacing p 0), [.called p])
  | .emplacing p i =>
    if i < n then
      some ({ s with
          processors := Function.update s.processors p (s.processors p ++ [i]) }.goto t
            (.starting p i),
        [.emplaced p i])
    else some (s.goto t .unlocking, [.filled])
  | .starting p i => some (s.goto t (.emplacing p (i + 1)), [.looped (s.processors p)[i]?])
  | .unlocking => some ({ s with scherMtx := none }.goto t (.leaving false), [.unlocked])
  | .leaving fast => some (s.goto t .out, [.returned fast s.pScher s.held])

/-- The machine of the threads that call `getScheduler`. -/
def machine (n : ℕ) : Machine Singleton ℕ GetEvent where
  init s := s = start
  step s t := s.step n t

end Singleton

/-- What is expected of the singleton: calls return one scheduler, which is the only one made, with
all its processors. -/
structure Published (n : ℕ) (evs : List GetEvent) (s : Singleton) : Prop where
  /-- All calls return the same scheduler. -/
  same : ∃ p, ∀ fast ret processors, .returned fast ret processors ∈ evs → ret = some p
  /-- There is no second scheduler. -/
  atMost : s.constructed ≤ 1
  /-- There is one when a call has returned. -/
  once : ∀ fast ret processors, .returned fast ret processors ∈ evs → s.constructed = 1
  /-- It holds all configured processors then. -/
  full : ∀ fast ret processors, .returned fast ret processors ∈ evs →
    processors = List.range n
  /-- So `co_go` does not divide by zero, and `next` has a processor to return. -/
  usable : ∀ fast ret processors, .returned fast ret processors ∈ evs →
    processors.length ≠ 0 ∧ ∀ (sel : ProcessorSelector) (coCnts : List ℕ),
      coCnts.length = processors.length → (sel.next coCnts).2 ≠ none

/-- No call that has found the scheduler without the lock returns before the last `emplace_back`. -/
def FastReturnsLate (n : ℕ) (evs : List GetEvent) : Prop :=
  Along (fun past ev ↦ ∀ ret processors, ev = .returned true ret processors →
    past.countP GetEvent.isEmplaced = n) evs

/-! ## What a step does -/

section Steps

variable {n t t' c : ℕ} {s s' : Singleton} {pc : GetPc} {ev : GetEvent} {evs es : List GetEvent}

/-- What one step of the thread `t` does. -/
inductive Singleton.Takes (n t : ℕ) (s : Singleton) : GetEvent → Singleton → Prop
  | testNull (hpc : s.pc t = .out) (hnull : s.pScher = none) :
      Takes n t s (.tested false) (s.goto t .locking)
  | testFound (hpc : s.pc t = .out) (hfound : s.pScher ≠ none) :
      Takes n t s (.tested true) (s.goto t (.leaving true))
  | lock (hpc : s.pc t = .locking) (hfree : s.scherMtx = none) :
      Takes n t s .locked ({ s with scherMtx := some t }.goto t .locked)
  | retestNull (hpc : s.pc t = .locked) (hnull : s.pScher = none) :
      Takes n t s (.retested false) (s.goto t .creating)
  | retestFound (hpc : s.pc t = .locked) (hfound : s.pScher ≠ none) :
      Takes n t s (.retested true) (s.goto t .unlocking)
  | construct (hpc : s.pc t = .creating) :
      Takes n t s (.constructed s.constructed) ({ s with
          constructed := s.constructed + 1
          processors := Function.update s.processors s.constructed [] }.goto t
            (.assigning s.constructed))
  | assign {p : ℕ} (hpc : s.pc t = .assigning p) :
      Takes n t s (.assigned p) ({ s with pScher := some p }.goto t .calling)
  | call {p : ℕ} (hpc : s.pc t = .calling) (hp : s.pScher = some p) :
      Takes n t s (.called p) (s.goto t (.emplacing p 0))
  | emplace {p i : ℕ} (hpc : s.pc t = .emplacing p i) (hi : i < n) :
      Takes n t s (.emplaced p i) ({ s with
          processors := Function.update s.processors p (s.processors p ++ [i]) }.goto t
            (.starting p i))
  | filled {p i : ℕ} (hpc : s.pc t = .emplacing p i) (hi : ¬ i < n) :
      Takes n t s .filled (s.goto t .unlocking)
  | loop {p i : ℕ} (hpc : s.pc t = .starting p i) :
      Takes n t s (.looped (s.processors p)[i]?) (s.goto t (.emplacing p (i + 1)))
  | unlock (hpc : s.pc t = .unlocking) :
      Takes n t s .unlocked ({ s with scherMtx := none }.goto t (.leaving false))
  | leave {fast : Bool} (hpc : s.pc t = .leaving fast) :
      Takes n t s (.returned fast s.pScher s.held) (s.goto t .out)

theorem Singleton.takes_of_step (hs : s.step n t = some (s', es)) :
    ∃ ev, es = [ev] ∧ Singleton.Takes n t s ev s' := by
  rw [Singleton.step.eq_def] at hs
  cases hpc : s.pc t with
  | out =>
    by_cases hnull : s.pScher = none
    · simp only [hpc, if_pos hnull, Option.some.injEq, Prod.mk.injEq] at hs
      obtain ⟨rfl, rfl⟩ := hs
      exact ⟨_, rfl, .testNull hpc hnull⟩
    · simp only [hpc, if_neg hnull, Option.some.injEq, Prod.mk.injEq] at hs
      obtain ⟨rfl, rfl⟩ := hs
      exact ⟨_, rfl, .testFound hpc hnull⟩
  | locking =>
    simp only [hpc, Option.ite_none_right_eq_some, Option.some.injEq, Prod.mk.injEq] at hs
    obtain ⟨hfree, rfl, rfl⟩ := hs
    exact ⟨_, rfl, .lock hpc hfree⟩
  | locked =>
    by_cases hnull : s.pScher = none
    · simp only [hpc, if_pos hnull, Option.some.injEq, Prod.mk.injEq] at hs
      obtain ⟨rfl, rfl⟩ := hs
      exact ⟨_, rfl, .retestNull hpc hnull⟩
    · simp only [hpc, if_neg hnull, Option.some.injEq, Prod.mk.injEq] at hs
      obtain ⟨rfl, rfl⟩ := hs
      exact ⟨_, rfl, .retestFound hpc hnull⟩
  | creating =>
    simp only [hpc, Option.some.injEq, Prod.mk.injEq] at hs
    obtain ⟨rfl, rfl⟩ := hs
    exact ⟨_, rfl, .construct hpc⟩
  | assigning p =>
    simp only [hpc, Option.some.injEq, Prod.mk.injEq] at hs
    obtain ⟨rfl, rfl⟩ := hs
    exact ⟨_, rfl, .assign hpc⟩
  | calling =>
    simp only [hpc, Option.map_eq_some_iff, Prod.mk.injEq] at hs
    obtain ⟨p, hp, rfl, rfl⟩ := hs
    exact ⟨_, rfl, .call hpc hp⟩
  | emplacing p i =>
    by_cases hi : i < n
    · simp only [hpc, if_pos hi, Option.some.injEq, Prod.mk.injEq] at hs
      obtain ⟨rfl, rfl⟩ := hs
      exact ⟨_, rfl, .emplace hpc hi⟩
    · simp only [hpc, if_neg hi, Option.some.injEq, Prod.mk.injEq] at hs
      obtain ⟨rfl, rfl⟩ := hs
      exact ⟨_, rfl, .filled hpc hi⟩
  | starting p i =>
    simp only [hpc, Option.some.injEq, Prod.mk.injEq] at hs
    obtain ⟨rfl, rfl⟩ := hs
    exact ⟨_, rfl, .loop hpc⟩
  | unlocking =>
    simp only [hpc, Option.some.injEq, Prod.mk.injEq] at hs
    obtain ⟨rfl, rfl⟩ := hs
    exact ⟨_, rfl, .unlock hpc⟩
  | leaving fast =>
    simp only [hpc, Option.some.injEq, Prod.mk.injEq] at hs
    obtain ⟨rfl, rfl⟩ := hs
    exact ⟨_, rfl, .leave hpc⟩

/-! ## What the threads know -/

def GetPc.Inside : GetPc → Prop
  | .out | .locking | .leaving _ => False
  | _ => True

def Unmade (s : Singleton) : Prop := s.pScher = none ∧ s.constructed = 0 ∧ s.processors 0 = []

/-- The scheduler is public and has got `c` processors. -/
def Begun (s : Singleton) (c : ℕ) : Prop :=
  s.pScher = some 0 ∧ s.constructed = 1 ∧ s.processors 0 = List.range c

/-- What a thread knows where it is, when `n` threads are configured. -/
def Known (n : ℕ) (s : Singleton) : GetPc → Prop
  | .out | .locking => True
  | .locked => Unmade s ∨ Begun s n
  | .creating => Unmade s
  | .assigning p => p = 0 ∧ s.constructed = 1 ∧ s.processors 0 = []
  | .calling => Begun s 0
  | .emplacing p i => p = 0 ∧ i ≤ n ∧ Begun s i
  | .starting p i => p = 0 ∧ i < n ∧ Begun s (i + 1)
  | .unlocking | .leaving false => Begun s n
  | .leaving true => s.pScher = some 0

/-- What holds of the singleton at any time. -/
structure Guarded (n : ℕ) (evs : List GetEvent) (s : Singleton) : Prop where
  /-- A thread between lock and unlock holds the mutex. -/
  holder : ∀ t, (s.pc t).Inside → s.scherMtx = some t
  /-- When nobody holds it, all is done or nothing is. -/
  free : s.scherMtx = none → Unmade s ∨ Begun s n
  /-- What threads know is so. -/
  known : ∀ t, Known n s (s.pc t)
  /-- There is only one scheduler to point to. -/
  pointer : ∀ p, s.pScher = some p → p = 0 ∧ s.constructed = 1
  /-- There is no second one. -/
  atMost : s.constructed ≤ 1
  /-- Its processors are those emplaced, in order. -/
  emplaced : s.processors 0 = List.range (evs.countP GetEvent.isEmplaced)

theorem guarded_start (n : ℕ) : Guarded n [] .start where
  holder _ h := h.elim
  free _ := .inl ⟨rfl, rfl, rfl⟩
  known _ := trivial
  pointer _ h := absurd h (by simp [Singleton.start])
  atMost := Nat.zero_le 1
  emplaced := rfl

theorem countP_other (evs : List GetEvent) (hev : ev.isEmplaced = false) :
    (evs ++ [ev]).countP GetEvent.isEmplaced = evs.countP GetEvent.isEmplaced := by
  rw [List.countP_append, List.countP_singleton, hev]
  rfl

theorem eq_of_range_eq {i j : ℕ} (h : List.range i = List.range j) : i = j := by
  have hlen := congrArg List.length h
  rwa [List.length_range, List.length_range] at hlen

theorem forall_goto {P : ℕ → GetPc → Prop} (s : Singleton) (hself : P t pc)
    (hother : ∀ t', t' ≠ t → P t' (s.pc t')) (t' : ℕ) : P t' ((s.goto t pc).pc t') :=
  (Function.forall_update_iff s.pc P).mpr ⟨hself, hother⟩ t'

namespace Guarded

theorem eq_of_inside (h : Guarded n evs s) (ht : (s.pc t).Inside) (ht' : (s.pc t').Inside) :
    t' = t :=
  Option.some.inj ((h.holder t' ht').symm.trans (h.holder t ht))

theorem goto (h : Guarded n evs s) (hin : pc.Inside → (s.pc t).Inside) (hknown : Known n s pc)
    (hev : ev.isEmplaced = false) : Guarded n (evs ++ [ev]) (s.goto t pc) := by
  refine ⟨?_, h.free, ?_, h.pointer, h.atMost, ?_⟩
  · apply forall_goto (P := fun t' pc' ↦ pc'.Inside → s.scherMtx = some t') s
    · intro hinside
      exact h.holder t (hin hinside)
    · intro t' _
      exact h.holder t'
  · apply forall_goto (P := fun _ pc' ↦ Known n s pc') s hknown
    intro t' _
    exact h.known t'
  · rw [countP_other evs hev]
    exact h.emplaced

theorem known_other (h : Guarded n evs s) (hin : (s.pc t).Inside) (hne : t' ≠ t)
    (hfull : Begun s n → Begun s' n) (hptr : s.pScher = some 0 → s'.pScher = some 0) :
    Known n s' (s.pc t') := by
  have hout : ¬ (s.pc t').Inside := fun hin' ↦ hne (h.eq_of_inside hin hin')
  have hknown := h.known t'
  cases hpc : s.pc t' with
  | out | locking => trivial
  | leaving fast =>
    rw [hpc] at hknown
    cases fast with
    | true => exact hptr hknown
    | false => exact hfull hknown
  | locked | creating | assigning _ | calling | emplacing _ _ | starting _ _ | unlocking =>
    rw [hpc] at hout
    exact absurd trivial hout

theorem critical (h : Guarded n evs s) (hin : (s.pc t).Inside)
    (hmtx : s'.scherMtx = s.scherMtx) (hpcs : s'.pc = s.pc) (hknown : Known n s' pc)
    (hfull : Begun s n → Begun s' n) (hptr : s.pScher = some 0 → s'.pScher = some 0)
    (hpointer : ∀ p, s'.pScher = some p → p = 0 ∧ s'.constructed = 1)
    (hatMost : s'.constructed ≤ 1)
    (hemplaced : s'.processors 0 = List.range ((evs ++ [ev]).countP GetEvent.isEmplaced)) :
    Guarded n (evs ++ [ev]) (s'.goto t pc) := by
  have hholder := h.holder t hin
  refine ⟨?_, ?_, ?_, hpointer, hatMost, hemplaced⟩
  · apply forall_goto (P := fun t' pc' ↦ pc'.Inside → s'.scherMtx = some t') s'
    · intro _
      exact hmtx.trans hholder
    · intro t' _ hin'
      rw [hpcs] at hin'
      exact hmtx.trans (h.holder t' hin')
  · intro hfree
    have hnone : s'.scherMtx = none := hfree
    rw [hmtx, hholder] at hnone
    exact absurd hnone (by simp)
  · apply forall_goto (P := fun _ pc' ↦ Known n s' pc') s' hknown
    intro t' hne
    rw [hpcs]
    exact h.known_other hin hne hfull hptr

theorem lock (h : Guarded n evs s) (hfree : s.scherMtx = none) :
    Guarded n (evs ++ [.locked]) ({ s with scherMtx := some t }.goto t .locked) := by
  refine ⟨?_, ?_, ?_, h.pointer, h.atMost, ?_⟩
  · apply forall_goto (P := fun t' pc' ↦ pc'.Inside → some t = some t')
    · exact fun _ ↦ rfl
    · intro t' _ hin'
      exact absurd (h.holder t' hin') (by rw [hfree]; simp)
  · intro hnone
    exact absurd hnone (by simp [Singleton.goto])
  · apply forall_goto (P := fun _ pc' ↦ Known n s pc')
    · exact h.free hfree
    · intro t' _
      exact h.known t'
  · rw [countP_other evs rfl]
    exact h.emplaced

theorem unlock (h : Guarded n evs s) (hpc : s.pc t = .unlocking) :
    Guarded n (evs ++ [.unlocked]) ({ s with scherMtx := none }.goto t (.leaving false)) := by
  have hfull : Begun s n := by
    have hknown := h.known t
    rw [hpc] at hknown
    exact hknown
  have hin : (s.pc t).Inside := by
    rw [hpc]
    trivial
  refine ⟨?_, fun _ ↦ .inr hfull, ?_, h.pointer, h.atMost, ?_⟩
  · apply forall_goto (P := fun t' pc' ↦ pc'.Inside → none = some t')
    · exact fun hinside ↦ hinside.elim
    · intro t' hne hin'
      exact absurd (h.eq_of_inside hin hin') hne
  · apply forall_goto (P := fun _ pc' ↦ Known n s pc')
    · exact hfull
    · intro t' _
      exact h.known t'
  · rw [countP_other evs rfl]
    exact h.emplaced

theorem construct (h : Guarded n evs s) (hpc : s.pc t = .creating) :
    Guarded n (evs ++ [.constructed s.constructed]) ({ s with
      constructed := s.constructed + 1
      processors := Function.update s.processors s.constructed [] }.goto t
        (.assigning s.constructed)) := by
  have hknown := h.known t
  rw [hpc] at hknown
  obtain ⟨hnull, hnone, hempty⟩ := hknown
  have hprocs : Function.update s.processors s.constructed [] 0 = [] := by
    rw [hnone, Function.update_self]
  refine h.critical (by rw [hpc]; trivial) rfl rfl ?_ ?_ ?_ ?_ ?_ ?_
  · exact ⟨hnone, by rw [hnone], hprocs⟩
  · exact fun hbegun ↦ absurd hbegun.1 (by rw [hnull]; simp)
  · exact fun hptr ↦ absurd hptr (by rw [hnull]; simp)
  · exact fun p hp ↦ absurd hp (by rw [hnull]; simp)
  · rw [hnone]
  · rw [countP_other evs rfl, ← h.emplaced, hempty]
    exact hprocs

theorem assign (h : Guarded n evs s) {p : ℕ} (hpc : s.pc t = .assigning p) :
    Guarded n (evs ++ [.assigned p]) ({ s with pScher := some p }.goto t .calling) := by
  have hknown := h.known t
  rw [hpc] at hknown
  obtain ⟨rfl, hone, hempty⟩ := hknown
  refine h.critical (by rw [hpc]; trivial) rfl rfl ?_ ?_ ?_ ?_ ?_ ?_
  · exact ⟨rfl, hone, hempty⟩
  · exact fun hbegun ↦ ⟨rfl, hone, hbegun.2.2⟩
  · exact fun _ ↦ rfl
  · intro p hp
    exact ⟨(Option.some.inj hp).symm, hone⟩
  · exact hone.le
  · rw [countP_other evs rfl]
    exact h.emplaced

theorem emplace (h : Guarded n evs s) {p i : ℕ} (hpc : s.pc t = .emplacing p i) (hi : i < n) :
    Guarded n (evs ++ [.emplaced p i]) ({ s with
      processors := Function.update s.processors p (s.processors p ++ [i]) }.goto t
        (.starting p i)) := by
  have hknown := h.known t
  rw [hpc] at hknown
  obtain ⟨rfl, -, hptr, hone, hprocs⟩ := hknown
  have hprocs' : Function.update s.processors 0 (s.processors 0 ++ [i]) 0 =
      List.range (i + 1) := by
    rw [Function.update_self, hprocs, List.range_succ]
  refine h.critical (by rw [hpc]; trivial) rfl rfl ?_ ?_ ?_ ?_ ?_ ?_
  · exact ⟨rfl, hi, hptr, hone, hprocs'⟩
  · -- a scheduler that is complete is not being filled
    intro hbegun
    have heq : i = n := eq_of_range_eq (hprocs.symm.trans hbegun.2.2)
    omega
  · exact id
  · exact h.pointer
  · exact h.atMost
  · have hcount := eq_of_range_eq (h.emplaced.symm.trans hprocs)
    rw [List.countP_append, hcount]
    exact hprocs'

theorem step (h : Guarded n evs s) (hs : Singleton.Takes n t s ev s') :
    Guarded n (evs ++ [ev]) s' := by
  have hknown := h.known t
  cases hs with
  | testNull hpc hnull => exact h.goto (fun hin ↦ hin.elim) trivial rfl
  -- the fast path sees the pointer and nothing else
  | testFound hpc hfound =>
    obtain ⟨p, hp⟩ := Option.ne_none_iff_exists'.mp hfound
    obtain ⟨rfl, -⟩ := h.pointer p hp
    exact h.goto (fun hin ↦ hin.elim) hp rfl
  | lock hpc hfree => exact h.lock hfree
  | retestNull hpc hnull =>
    rw [hpc] at hknown
    rcases hknown with hunmade | hbegun
    · exact h.goto (fun _ ↦ by rw [hpc]; trivial) hunmade rfl
    · exact absurd hbegun.1 (by rw [hnull]; simp)
  | retestFound hpc hfound =>
    rw [hpc] at hknown
    rcases hknown with hunmade | hbegun
    · exact absurd hunmade.1 hfound
    · exact h.goto (fun _ ↦ by rw [hpc]; trivial) hbegun rfl
  | construct hpc => exact h.construct hpc
  | assign hpc => exact h.assign hpc
  | call hpc hp =>
    rw [hpc] at hknown
    obtain rfl := Option.some.inj (hknown.1.symm.trans hp)
    exact h.goto (fun _ ↦ by rw [hpc]; trivial) ⟨rfl, Nat.zero_le n, hknown⟩ rfl
  | emplace hpc hi => exact h.emplace hpc hi
  | filled hpc hi =>
    rw [hpc] at hknown
    obtain ⟨rfl, hle, hbegun⟩ := hknown
    obtain rfl : _ = n := Nat.le_antisymm hle (Nat.le_of_not_lt hi)
    exact h.goto (fun _ ↦ by rw [hpc]; trivial) hbegun rfl
  | loop hpc =>
    rw [hpc] at hknown
    obtain ⟨rfl, hlt, hbegun⟩ := hknown
    exact h.goto (fun _ ↦ by rw [hpc]; trivial) ⟨rfl, hlt, hbegun⟩ rfl
  | unlock hpc => exact h.unlock hpc
  | leave hpc => exact h.goto (fun hin ↦ hin.elim) trivial rfl

theorem returned (h : Guarded n evs s) {fast : Bool} (hpc : s.pc t = .leaving fast) :
    s.pScher = some 0 ∧ s.held = List.range (evs.countP GetEvent.isEmplaced) ∧
      (fast = false → evs.countP GetEvent.isEmplaced = n) := by
  have hknown := h.known t
  rw [hpc] at hknown
  have hptr : s.pScher = some 0 := by
    cases fast with
    | true => exact hknown
    | false => exact hknown.1
  refine ⟨hptr, ?_, ?_⟩
  · rw [Singleton.held, hptr]
    exact h.emplaced
  · rintro rfl
    exact eq_of_range_eq (h.emplaced.symm.trans hknown.2.2)

/-- A return is of a complete scheduler, unless it is a fast one before the last `emplace_back`. -/
theorem full_iff (h : Guarded n evs s) (hs : Singleton.Takes n t s ev s') :
    (∀ fast ret processors, ev = .returned fast ret processors → processors = List.range n) ↔
      ∀ ret processors, ev = .returned true ret processors →
        evs.countP GetEvent.isEmplaced = n := by
  cases hs with
  | leave hpc =>
    obtain ⟨-, hheld, hslow⟩ := h.returned hpc
    rename_i fast
    constructor
    · intro hfull ret processors _
      exact eq_of_range_eq (hheld.symm.trans (hfull fast _ _ rfl))
    · intro hlate fast' ret processors heq
      obtain ⟨-, -, rfl⟩ := GetEvent.returned.inj heq
      have hcount : evs.countP GetEvent.isEmplaced = n := by
        cases fast with
        | true => exact hlate _ _ rfl
        | false => exact hslow rfl
      rw [hheld, hcount]
  | _ => exact iff_of_true (by simp) (by simp)

theorem pScher_step (h : Guarded n evs s) (hs : Singleton.Takes n t s ev s')
    (hptr : s.pScher = some 0) : s'.pScher = some 0 := by
  cases hs with
  | assign hpc =>
    have hknown := h.known t
    rw [hpc] at hknown
    exact congrArg some hknown.1
  | _ => exact hptr

end Guarded

end Steps

/-! ## Runs -/

section Runs

variable {n : ℕ} {s₀ s s' : Singleton} {ev : GetEvent} {evs : List GetEvent}
  {tr : List (ℕ × List GetEvent)}

/-- What has come of a run: it has returned one scheduler, and complete ones as far as fast returns
came late. -/
structure Served (n : ℕ) (evs : List GetEvent) (s : Singleton) : Prop where
  /-- The invariant. -/
  guarded : Guarded n evs s
  /-- What has been returned is the scheduler there is. -/
  same : ∀ fast ret processors, .returned fast ret processors ∈ evs →
    ret = some 0 ∧ s.pScher = some 0
  /-- It was complete unless a fast return came too early. -/
  full : (∀ fast ret processors, .returned fast ret processors ∈ evs →
    processors = List.range n) ↔ FastReturnsLate n evs

theorem served_start (n : ℕ) : Served n [] .start where
  guarded := guarded_start n
  same _ _ _ h := absurd h List.not_mem_nil
  full := iff_of_true (fun _ _ _ h ↦ absurd h List.not_mem_nil) along_nil

theorem Served.step {t : ℕ} (h : Served n evs s) (hs : Singleton.Takes n t s ev s') :
    Served n (evs ++ [ev]) s' := by
  refine ⟨h.guarded.step hs, ?_, ?_⟩
  · intro fast ret processors hmem
    rcases List.mem_append.mp hmem with hmem | hmem
    · obtain ⟨hret, hptr⟩ := h.same fast ret processors hmem
      exact ⟨hret, h.guarded.pScher_step hs hptr⟩
    · obtain rfl := List.mem_singleton.mp hmem
      cases hs with
      | leave hpc =>
        have hptr := (h.guarded.returned hpc).1
        exact ⟨hptr, hptr⟩
  · have hlast := h.guarded.full_iff hs
    rw [FastReturnsLate, along_snoc, ← hlast]
    refine Iff.trans ?_ (and_congr_left' h.full)
    simp only [List.mem_append, List.mem_singleton, or_imp, forall_and, eq_comm]

theorem served_run (h₀ : (Singleton.machine n).init s₀)
    (h : Run (Singleton.machine n) Always s₀ tr s) : Served n (events tr) s := by
  induction h with
  | nil =>
    obtain rfl : s₀ = .start := h₀
    exact served_start n
  | snoc hr hc hst ih =>
    obtain ⟨ev, rfl, htakes⟩ := Singleton.takes_of_step hst
    rw [events_append, events_singleton]
    exact ih.step htakes

/-- **When the scheduler is published complete.** For every number of threads and every interleaving
of their calls, with at least one thread configured: all calls return the one scheduler that is
made, with all its processors, if and only if no call that has found the pointer without the lock
returns before the last `emplace_back`. -/
theorem published_iff (hn : 1 ≤ n) (h₀ : (Singleton.machine n).init s₀)
    (h : Run (Singleton.machine n) Always s₀ tr s) :
    Published n (events tr) s ↔ FastReturnsLate n (events tr) := by
  obtain ⟨hguarded, hsame, hfull⟩ := served_run h₀ h
  rw [← hfull]
  constructor
  · intro hpub
    exact hpub.full
  · intro hall
    refine ⟨⟨0, ?_⟩, hguarded.atMost, ?_, hall, ?_⟩
    · intro fast ret processors hmem
      exact (hsame fast ret processors hmem).1
    · intro fast ret processors hmem
      exact (hguarded.pointer 0 (hsame fast ret processors hmem).2).2
    · intro fast ret processors hmem
      obtain rfl := hall fast ret processors hmem
      rw [List.length_range]
      refine ⟨by omega, ?_⟩
      intro sel coCnts hlen
      cases coCnts with
      | nil =>
        rw [List.length_nil] at hlen
        omega
      | cons front coCnts =>
        rw [ProcessorSelector.next]
        split <;> simp

/-- Two threads; the second one comes when the first has released the lock. -/
def oneAfterTheOther : List ℕ := List.replicate 12 0 ++ List.replicate 2 1

theorem published_iff_one_after_the_other :
    ∃ tr s, Run (Singleton.machine 2) Always .start tr s ∧
      .returned true (some 0) [0, 1] ∈ events tr ∧
      (Published 2 (events tr) s ↔ FastReturnsLate 2 (events tr)) := by
  have h := run_after (M := Singleton.machine 2) (C := Always) (s := .start) oneAfterTheOther
  exact ⟨_, _, h, by decide, published_iff (by decide) rfl h⟩

/-- The first thread has assigned the pointer, and the second one returns it with no processor. -/
theorem published_incomplete :
    ¬ ∀ (n : ℕ) (s₀ s : Singleton) (tr : List (ℕ × List GetEvent)), 1 ≤ n →
      (Singleton.machine n).init s₀ → Run (Singleton.machine n) Always s₀ tr s →
      Published n (events tr) s := by
  intro h
  have hrun := run_after (M := Singleton.machine 1) (C := Always) (s := .start)
    [0, 0, 0, 0, 0, 1, 1]
  have hret : .returned true (some 0) [] ∈ events ((Singleton.machine 1).after Always .start
      [0, 0, 0, 0, 0, 1, 1]).2 := by decide
  have hfull := (h 1 _ _ _ (by decide) rfl hrun).full _ _ _ hret
  exact absurd hfull (by decide)

end Runs

end Copnet
