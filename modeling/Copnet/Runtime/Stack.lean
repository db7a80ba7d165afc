import Copnet.Foundation.Transition
import Copnet.Runtime.State

/-!
# The stacks of coroutines

The size of a stack that is given to `co_go` is handed on through `Scheduler::createNewCo`,
`Processor::goNewCo` and the constructors of `Coroutine` and `Context`. The stack is allocated with
that size, by the first `resume`, but what `makeContext` is told of it is the constant
`coroutineStackSize`.

The machine here is the coroutines of all processors, as far as their stacks go. Beside them stands
what was asked for by the caller and what was allocated, which the program does not keep in this
form. `malloc` does not fail.
-/

open Transition

namespace Copnet

/-- `parameter::coroutineStackSize`. -/
def coroutineStackSize : ℕ := 32 * 1024

structure UcStack where
  /-- `ss_sp`. -/
  ssSp : ℕ
  /-- `ss_size`. -/
  ssSize : ℕ
deriving DecidableEq

structure Context where
  /-- `ctx_.uc_stack`, once it has been set. -/
  ucStack : Option UcStack
  /-- `pStack_`. -/
  pStack : ℕ
  /-- `stackSize_`. -/
  stackSize_ : ℕ
deriving DecidableEq

namespace Context

/-- `Context::Context`. -/
def created (stackSize : ℕ) : Context := ⟨none, 0, stackSize⟩

/-- `Context::makeContext`, where `malloc` answers `blk` if it is called. -/
def makeContext (ctx : Context) (blk : ℕ) : Context :=
  let pStack := if ctx.pStack = 0 then blk else ctx.pStack
  { ctx with ucStack := some ⟨pStack, coroutineStackSize⟩, pStack }

end Context

/-- `Coroutine`, as far as its stack is concerned. -/
structure StackCo where
  /-- `status_`. -/
  status : CoStatus
  /-- `ctx_`. -/
  ctx : Context
deriving DecidableEq

namespace StackCo

/-- `Coroutine::Coroutine`. -/
def created (stackSize : ℕ) : StackCo := ⟨.ready, .created stackSize⟩

/-- `Coroutine::resume`, where `malloc` answers `blk` if it is called. -/
def resume (co : StackCo) (blk : ℕ) : StackCo :=
  match co.status with
  | .ready => ⟨.running, co.ctx.makeContext blk⟩
  | .waiting => { co with status := .running }
  | .running | .dead => co

/-- `Coroutine::yield`. -/
def yield (co : StackCo) : StackCo := { co with status := .waiting }

/-- The size that `resume` asks `malloc` for, if it calls it. -/
def mallocSize? (co : StackCo) : Option ℕ :=
  if co.status = .ready ∧ co.ctx.pStack = 0 then some co.ctx.stackSize_ else none

end StackCo

/-! ## The machine -/

/-- The map with `v` at the place `a` of `p`. -/
def put {β : Type} (f : Pid → Addr → β) (p : Pid) (a : Addr) (v : β) : Pid → Addr → β :=
  Function.update f p (Function.update (f p) a v)

/-- What `malloc` has answered for a stack. -/
structure StackBlock where
  /-- The address. -/
  base : ℕ
  /-- The size asked for. -/
  size : ℕ
deriving DecidableEq

/-- The coroutines of all processors, and what there is to say about their stacks. -/
structure Stacks where
  /-- The objects in the pools. -/
  cos : Pid → Addr → Option StackCo
  /-- The sizes that were asked for. -/
  asked : Pid → Addr → ℕ
  /-- The blocks that were allocated. -/
  block : Pid → Addr → Option StackBlock

/-- What happens to coroutines. -/
inductive StackAct
  /-- `co_go(func, stackSize, tid)`, where `next()` returns `next` if it is called, and `new_obj`
  returns `a`. -/
  | coGo (stackSize : ℕ) (tid : ℤ) (next : Pid) (a : Addr)
  /-- `goNewCo(func, stackSize)` on a processor, where `new_obj` returns `a`. -/
  | goNewCo (stackSize : ℕ) (p : Pid) (a : Addr)
  /-- The processor resumes a coroutine; `malloc` answers `blk` if it is called. -/
  | resume (p : Pid) (a : Addr) (blk : ℕ)
  /-- A coroutine yields. -/
  | yield (p : Pid) (a : Addr)
  /-- A coroutine is destroyed, and its stack is freed. -/
  | delete (p : Pid) (a : Addr)

namespace Stacks

variable (s : Stacks)

def start : Stacks := ⟨fun _ _ ↦ none, fun _ _ ↦ 0, fun _ _ ↦ none⟩

/-- `Processor::goNewCo`, where `new_obj` returns `a`. -/
def goNewCo (p : Pid) (a : Addr) (stackSize : ℕ) : Stacks :=
  { s with cos := put s.cos p a (some (.created stackSize)) }

/-- `Scheduler::createNewCo`, where `next()` returns `next`. -/
def createNewCo (next : Pid) (a : Addr) (stackSize : ℕ) : Stacks := s.goNewCo next a stackSize

/-- `co_go`. -/
def coGo (proCnt : ℕ) (stackSize : ℕ) (tid : ℤ) (next : Pid) (a : Addr) : Stacks :=
  if tid < 0 then s.createNewCo next a stackSize
  else s.goNewCo (tid % proCnt).toNat a stackSize

/-- The processor that `co_go` has the coroutine built on. -/
def coGoPid (proCnt : ℕ) (tid : ℤ) (next : Pid) : Pid :=
  if tid < 0 then next else (tid % proCnt).toNat

/-- A size was asked for the stack of the coroutine at `a` of `p`, and none is allocated yet. -/
def noteAsked (p : Pid) (a : Addr) (asked : ℕ) : Stacks :=
  { s with asked := put s.asked p a asked, block := put s.block p a none }

/-- One step, with `proCnt` processors. An object is made where there is none. -/
def step (proCnt : ℕ) : StackAct → Option (Stacks × List Empty)
  | .coGo stackSize tid next a =>
    let p := coGoPid proCnt tid next
    if s.cos p a = none then
      some (((s.coGo proCnt stackSize tid next a).noteAsked p a stackSize), [])
    else none
  | .goNewCo stackSize p a =>
    if s.cos p a = none then some ((s.goNewCo p a stackSize).noteAsked p a stackSize, []) else none
  | .resume p a blk =>
    match s.cos p a with
    | none => none
    | some co =>
      if blk = 0 then none
      else
        let block := match co.mallocSize? with
          | some size => some ⟨blk, size⟩
          | none => s.block p a
        some ({ s with
          cos := put s.cos p a (some (co.resume blk))
          block := put s.block p a block }, [])
  | .yield p a =>
    match s.cos p a with
    | none => none
    | some co =>
      -- it is the one that runs who yields
      if co.status = .running then some ({ s with cos := put s.cos p a (some co.yield) }, [])
      else none
  | .delete p a =>
    if s.cos p a = none then none else some ({ s with cos := put s.cos p a none }, [])

def machine (proCnt : ℕ) : Machine Stacks StackAct Empty where
  init s := s = start
  step s := s.step proCnt

end Stacks

/-- The stack lies in the block that was allocated for it, and has the size that was asked for. -/
def StackFits (stack : UcStack) (block : Option StackBlock) (asked : ℕ) : Prop :=
  (∃ b, block = some b ∧ b.base ≤ stack.ssSp ∧ stack.ssSp + stack.ssSize ≤ b.base + b.size) ∧
    stack.ssSize = asked

/-! ## The invariant -/

/-- What holds of a coroutine, of what was asked for it and of what was allocated for it. -/
inductive StackInv : StackCo → ℕ → Option StackBlock → Prop
  /-- It has not been resumed. -/
  | fresh (asked : ℕ) : StackInv (.created asked) asked none
  /-- It has a stack of the size that was asked for, and its context is told of another. -/
  | started (status : CoStatus) (blk asked : ℕ) (hstatus : status ≠ .ready) :
      StackInv ⟨status, ⟨some ⟨blk, coroutineStackSize⟩, blk, asked⟩⟩ asked (some ⟨blk, asked⟩)

/-- Every coroutine is as the invariant has it. -/
def StacksInv (s : Stacks) : Prop :=
  ∀ p a co, s.cos p a = some co → StackInv co (s.asked p a) (s.block p a)

section Invariant

variable {s s' : Stacks} {proCnt : ℕ} {act : StackAct} {es : List Empty} {co : StackCo}
  {asked blk : ℕ} {block : Option StackBlock} {p q : Pid} {a b : Addr}

theorem put_apply {β : Type} (f : Pid → Addr → β) (v : β) :
    put f p a v q b = if q = p ∧ b = a then v else f q b := by
  rw [put, Function.update_apply]
  by_cases hq : q = p
  · subst hq
    rw [if_pos rfl, Function.update_apply]
    simp only [true_and]
  · rw [if_neg hq, if_neg fun h ↦ hq h.1]

theorem put_self {β : Type} (f : Pid → Addr → β) : put f p a (f p a) = f := by
  rw [put, Function.update_eq_self, Function.update_eq_self]

theorem StacksInv.put (h : StacksInv s) (p : Pid) (a : Addr) {co? : Option StackCo}
    (hco : ∀ co, co? = some co → StackInv co asked block) :
    StacksInv ⟨put s.cos p a co?, put s.asked p a asked, put s.block p a block⟩ := by
  intro q b co hget
  dsimp only at hget ⊢
  rw [put_apply] at hget ⊢
  rw [put_apply]
  by_cases hat : q = p ∧ b = a
  · rw [if_pos hat] at hget ⊢
    rw [if_pos hat]
    exact hco co hget
  · rw [if_neg hat] at hget ⊢
    rw [if_neg hat]
    exact h q b co hget

theorem StackInv.resume (h : StackInv co asked block) :
    StackInv (co.resume blk) asked (match co.mallocSize? with
      | some size => some ⟨blk, size⟩
      | none => block) := by
  cases h with
  | fresh asked => exact .started .running blk asked (by decide)
  | started status blk' asked hstatus =>
    have hnone : StackCo.mallocSize? ⟨status, ⟨some ⟨blk', coroutineStackSize⟩, blk', asked⟩⟩ =
        none := if_neg fun h ↦ hstatus h.1
    rw [hnone]
    cases status with
    | ready => exact absurd rfl hstatus
    | running => exact .started .running blk' asked (by decide)
    | waiting => exact .started .running blk' asked (by decide)
    | dead => exact .started .dead blk' asked (by decide)

theorem StackInv.yield (h : StackInv co asked block) (hrun : co.status = .running) :
    StackInv co.yield asked block := by
  cases h with
  | fresh asked => cases hrun
  | started status blk asked hstatus => exact .started .waiting blk asked (by decide)

theorem coGo_eq (stackSize : ℕ) (tid : ℤ) (next : Pid) :
    s.coGo proCnt stackSize tid next a =
      s.goNewCo (Stacks.coGoPid proCnt tid next) a stackSize := by
  rw [Stacks.coGo, Stacks.coGoPid]
  split <;> rfl

theorem StacksInv.step (h : StacksInv s) (hs : s.step proCnt act = some (s', es)) :
    StacksInv s' := by
  cases act with
  | coGo stackSize tid next a =>
    rw [Stacks.step, coGo_eq, Option.ite_none_right_eq_some, Option.some_inj] at hs
    obtain ⟨rfl, -⟩ := Prod.mk.inj hs.2
    refine h.put (Stacks.coGoPid proCnt tid next) a fun co hco ↦ ?_
    rw [← Option.some.inj hco]
    exact .fresh stackSize
  | goNewCo stackSize p a =>
    rw [Stacks.step, Option.ite_none_right_eq_some, Option.some_inj] at hs
    obtain ⟨rfl, -⟩ := Prod.mk.inj hs.2
    refine h.put p a fun co hco ↦ ?_
    rw [← Option.some.inj hco]
    exact .fresh stackSize
  | resume p a blk =>
    rw [Stacks.step] at hs
    split at hs
    · cases hs
    · next co hget =>
      rw [Option.ite_none_left_eq_some, Option.some_inj] at hs
      obtain ⟨rfl, -⟩ := Prod.mk.inj hs.2
      have hco : ∀ co', some (co.resume blk) = some co' → StackInv co' (s.asked p a)
          (match co.mallocSize? with
            | some size => some ⟨blk, size⟩
            | none => s.block p a) := by
        intro co' hco'
        rw [← Option.some.inj hco']
        exact (h p a co hget).resume
      have hput := h.put p a hco
      rwa [put_self] at hput
  | yield p a =>
    rw [Stacks.step] at hs
    split at hs
    · cases hs
    · next co hget =>
      rw [Option.ite_none_right_eq_some, Option.some_inj] at hs
      obtain ⟨rfl, -⟩ := Prod.mk.inj hs.2
      have hco : ∀ co', some co.yield = some co' → StackInv co' (s.asked p a) (s.block p a) := by
        intro co' hco'
        rw [← Option.some.inj hco']
        exact (h p a co hget).yield hs.1
      have hput := h.put p a hco
      rwa [put_self, put_self] at hput
  | delete p a =>
    rw [Stacks.step, Option.ite_none_left_eq_some, Option.some_inj] at hs
    obtain ⟨rfl, -⟩ := Prod.mk.inj hs.2
    have hco : ∀ co', none = some co' → StackInv co' (s.asked p a) (s.block p a) := nofun
    have hput := h.put p a hco
    rwa [put_self, put_self] at hput

theorem stacksInv_of_reachable (h : Reachable (Stacks.machine proCnt) Always s) : StacksInv s := by
  refine h.invariant ?_ fun hinv _ hs ↦ hinv.step hs
  rintro s rfl p a co hco
  cases hco

/-- **When the stack of a coroutine lies in its block.** In every run, whatever sizes are asked for,
whichever processors the coroutines are built on and in whatever order they are resumed, yield and
are destroyed: a coroutine that has been resumed has a stack that lies in the block allocated for it
and has the size asked for exactly if that size is `coroutineStackSize`. -/
theorem stack_fits_iff (h : Reachable (Stacks.machine proCnt) Always s)
    (hco : s.cos p a = some co) {stack : UcStack} (hstack : co.ctx.ucStack = some stack) :
    StackFits stack (s.block p a) (s.asked p a) ↔ s.asked p a = coroutineStackSize := by
  have hinv := stacksInv_of_reachable h p a co hco
  generalize s.asked p a = asked at hinv ⊢
  generalize s.block p a = block at hinv ⊢
  cases hinv with
  | fresh asked => cases hstack
  | started status blk asked hstatus =>
    obtain rfl := Option.some.inj hstack
    constructor
    · exact fun hfits ↦ hfits.2.symm
    · rintro rfl
      exact ⟨⟨_, rfl, le_rfl, le_rfl⟩, rfl⟩

end Invariant

/-- A coroutine with a stack of the given size is built on processor 1 of 2, resumed, yields and is
resumed again. -/
def resumedTwice (stackSize : ℕ) : Stacks :=
  ((Stacks.machine 2).after Always .start
    [.coGo stackSize 3 0 72, .resume 1 72 4096, .yield 1 72, .resume 1 72 8192]).1

theorem reachable_resumedTwice (stackSize : ℕ) :
    Reachable (Stacks.machine 2) Always (resumedTwice stackSize) :=
  ⟨_, _, rfl, run_after _⟩

theorem stack_fits_default :
    StackFits ⟨4096, coroutineStackSize⟩ ((resumedTwice coroutineStackSize).block 1 72)
      ((resumedTwice coroutineStackSize).asked 1 72) := by
  have hco : (resumedTwice coroutineStackSize).cos 1 72 =
      some ⟨.running, some ⟨4096, coroutineStackSize⟩, 4096, coroutineStackSize⟩ := rfl
  exact (stack_fits_iff (reachable_resumedTwice _) hco rfl).mpr rfl

/-- A stack of 32 KiB in a block of one byte. -/
theorem stack_fails_one_byte :
    Reachable (Stacks.machine 2) Always (resumedTwice 1) ∧
      (resumedTwice 1).cos 1 72 =
        some ⟨.running, some ⟨4096, coroutineStackSize⟩, 4096, 1⟩ ∧
      (resumedTwice 1).block 1 72 = some ⟨4096, 1⟩ ∧
      ¬ StackFits ⟨4096, coroutineStackSize⟩ ((resumedTwice 1).block 1 72)
        ((resumedTwice 1).asked 1 72) := by
  refine ⟨reachable_resumedTwice 1, rfl, rfl, ?_⟩
  rintro ⟨-, hasked⟩
  exact absurd hasked (by decide)

end Copnet
