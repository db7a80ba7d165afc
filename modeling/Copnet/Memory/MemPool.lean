import Copnet.Foundation.ByteMemory
import Copnet.Foundation.Transition
import Mathlib.Data.List.Perm.Basic

/-!
# The memory pool

`MemPool` hands out blocks of one size. It takes memory from `malloc` in slabs, each of one block
more than the slab before, and threads the blocks of a new slab on its free list; a block's link
stands in the bytes that the client uses while the block is out. The slabs themselves are threaded
on a second list, through a header in front of each of them.

The machine here is a pool, the memory and what the pool's clients do: they allocate, free, and
write into memory in between. What `malloc` answers is part of the action. It answers with memory
that is disjoint from all slabs; the sizes it is asked for are computed in `size_t`, and wrap.
Addresses (`void*`, `MemBlockNode*`) are numbers.
-/

open ByteMemory Transition

namespace Copnet

/-- `sizeof(MemBlockNode)`, a union of a pointer and a `char`. -/
def sizeofMemBlockNode : ℕ := 8

/-- The number of values of a `size_t`. -/
def sizeTValues : ℕ := 2 ^ 64

/-- `parameter::memPoolMallocObjCnt`. -/
def memPoolMallocObjCnt : ℕ := 40

structure MemPool where
  /-- `_freeListHead`. -/
  freeListHead : ℕ
  /-- `_mallocListHead`. -/
  mallocListHead : ℕ
  /-- `_mallocTimes`. -/
  mallocTimes : ℕ
  /-- `objSize_`. -/
  objSize_ : ℕ
deriving DecidableEq

namespace MemPool

/-- `MemPool<objSize>::MemPool()`. -/
def created (objSize : ℕ) : MemPool :=
  ⟨0, 0, 0, if objSize < sizeofMemBlockNode then sizeofMemBlockNode else objSize⟩

variable (p : MemPool) (mem : Mem)

/-- The next link of the node at `a`. -/
def next (a : ℕ) : ℕ := load mem a sizeofMemBlockNode

/-- The memory after `node->next = v`. -/
def setNext (node v : ℕ) : Mem := store mem node v sizeofMemBlockNode

/-- `mallocCnt`, the number of blocks of the next slab. -/
def mallocCnt : ℕ := (memPoolMallocObjCnt + p.mallocTimes) % sizeTValues

/-- The size that the next slab is asked for with. -/
def mallocSize : ℕ := (p.mallocCnt * p.objSize_ + sizeofMemBlockNode) % sizeTValues

/-- The loop that threads the blocks of a new slab on the free list, given how many are left. -/
def carve (objSize_ : ℕ) : ℕ → Mem → ℕ → ℕ → Mem × ℕ
  | 0, mem, freeListHead, _ => (mem, freeListHead)
  | n + 1, mem, freeListHead, newMallocBlk =>
    carve objSize_ n (setNext mem newMallocBlk freeListHead) newMallocBlk
      ((newMallocBlk + objSize_) % sizeTValues)

/-- The addresses at which that loop makes its nodes. -/
def carved (objSize_ : ℕ) : ℕ → ℕ → List ℕ
  | 0, _ => []
  | n + 1, newMallocBlk =>
    newMallocBlk :: carved objSize_ n ((newMallocBlk + objSize_) % sizeTValues)

/-- `AllocAMemBlock` where the free list is empty, up to `++_mallocTimes`: `malloc` answers
`newMallocBlk`. -/
def grow (newMallocBlk : ℕ) : MemPool × Mem :=
  let mem := setNext mem newMallocBlk p.mallocListHead
  let r := carve p.objSize_ p.mallocCnt mem p.freeListHead
    ((newMallocBlk + sizeofMemBlockNode) % sizeTValues)
  ({ p with
      freeListHead := r.2
      mallocListHead := newMallocBlk
      mallocTimes := (p.mallocTimes + 1) % sizeTValues }, r.1)

/-- The end of `AllocAMemBlock`: the first free block is taken off its list. -/
def take : MemPool := { p with freeListHead := next mem p.freeListHead }

/-- `MemPool::AllocAMemBlock`, where `malloc` answers `newMallocBlk` if it is called: the pool and
the memory after it, and what it returns. -/
def allocAMemBlock (newMallocBlk : ℕ) : MemPool × Mem × ℕ :=
  let (p, mem) := if p.freeListHead = 0 then p.grow mem newMallocBlk else (p, mem)
  (p.take mem, mem, p.freeListHead)

/-- `MemPool::FreeAMemBlock`. -/
def freeAMemBlock (block : ℕ) : MemPool × Mem :=
  if block = 0 then (p, mem)
  else ({ p with freeListHead := block }, setNext mem block p.freeListHead)

end MemPool

/-- What `malloc` has answered: where, for what size, and for how many blocks. -/
structure Slab where
  /-- The address. -/
  base : ℕ
  /-- The size asked for. -/
  size : ℕ
  /-- The number of blocks carved from it. -/
  cnt : ℕ
deriving DecidableEq

/-- A pool, the memory, what `malloc` has given to the pool and what the pool has given away. -/
structure PoolState where
  /-- The pool object. -/
  pool : MemPool
  /-- The memory. -/
  mem : Mem
  /-- The slabs, the latest first. -/
  slabs : List Slab
  /-- The blocks that clients hold. -/
  outstanding : List ℕ

/-- What can happen to a pool. -/
inductive PoolAct
  /-- `AllocAMemBlock()`, where `malloc` answers `newMallocBlk` if it is called. -/
  | alloc (newMallocBlk : ℕ)
  /-- `FreeAMemBlock(block)`. -/
  | free (block : ℕ)
  /-- Somebody writes a byte to memory. -/
  | write (x : ℕ) (v : UInt8)

/-- What a pool reports. -/
inductive PoolEvent
  /-- `AllocAMemBlock` returns `ret`. -/
  | allocated (ret : ℕ)
deriving DecidableEq

namespace PoolState

variable (s : PoolState)

def start (objSize : ℕ) (mem : Mem) : PoolState := ⟨.created objSize, mem, [], []⟩

def blocksOf (w : Slab) : List ℕ :=
  MemPool.carved s.pool.objSize_ w.cnt ((w.base + sizeofMemBlockNode) % sizeTValues)

def blocks : List ℕ := s.slabs.flatMap s.blocksOf

/-- `malloc` may answer `blk`: it is memory, and none of it belongs to a slab. -/
def MallocFresh (blk : ℕ) : Prop :=
  blk ≠ 0 ∧ blk + s.pool.mallocSize ≤ sizeTValues ∧
    ∀ w ∈ s.slabs, Apart blk s.pool.mallocSize w.base w.size

instance (blk : ℕ) : Decidable (s.MallocFresh blk) := inferInstanceAs (Decidable (_ ∧ _ ∧ _))

/-- The slabs after an allocation for which `malloc` answers `blk`, if it is called. -/
def slabsAfter (blk : ℕ) : List Slab :=
  if s.pool.freeListHead = 0 then ⟨blk, s.pool.mallocSize, s.pool.mallocCnt⟩ :: s.slabs
  else s.slabs

def alloc (blk : ℕ) : PoolState × List PoolEvent :=
  let (pool, mem, ret) := s.pool.allocAMemBlock s.mem blk
  (⟨pool, mem, s.slabsAfter blk, ret :: s.outstanding⟩, [.allocated ret])

def free (block : ℕ) : PoolState :=
  let (pool, mem) := s.pool.freeAMemBlock s.mem block
  ⟨pool, mem, s.slabs, s.outstanding.erase block⟩

def step : PoolAct → Option (PoolState × List PoolEvent)
  | .alloc blk =>
    if s.pool.freeListHead = 0 → s.MallocFresh blk then some (s.alloc blk) else none
  | .free block => some (s.free block, [])
  | .write x v => some ({ s with mem := Function.update s.mem x v }, [])

def machine : Machine PoolState PoolAct PoolEvent where
  init s := ∃ objSize < sizeTValues, ∃ mem, s = start objSize mem
  step := step

/-- The byte at `x` is in a block that a client holds. -/
def InUse (x : ℕ) : Prop := ∃ b ∈ s.outstanding, b ≤ x ∧ x < b + s.pool.objSize_

/-- The byte at `x` is in a slab. -/
def InSlab (x : ℕ) : Prop := ∃ w ∈ s.slabs, w.base ≤ x ∧ x < w.base + w.size

instance (x : ℕ) : Decidable (s.InUse x) := inferInstanceAs (Decidable (∃ b ∈ s.outstanding, _))

instance (x : ℕ) : Decidable (s.InSlab x) := inferInstanceAs (Decidable (∃ w ∈ s.slabs, _))

/-- What the pool may expect of its clients: they free null or a block they hold, and write to the
pool's memory only inside of the blocks they hold. -/
def Disciplined : PoolAct → Prop
  | .alloc _ => True
  | .free block => block = 0 ∨ block ∈ s.outstanding
  | .write x _ => s.InSlab x → s.InUse x

instance : (act : PoolAct) → Decidable (s.Disciplined act)
  | .alloc _ => isTrue trivial
  | .free block => inferInstanceAs (Decidable (block = 0 ∨ block ∈ s.outstanding))
  | .write x _ => inferInstanceAs (Decidable (s.InSlab x → s.InUse x))

/-- The size of a slab is what it should be: its computation does not wrap. -/
def Fits : PoolAct → Prop
  | .alloc _ => s.pool.freeListHead = 0 →
      (memPoolMallocObjCnt + s.pool.mallocTimes) * s.pool.objSize_ + sizeofMemBlockNode <
        sizeTValues
  | .free _ | .write _ _ => True

instance : (act : PoolAct) → Decidable (s.Fits act)
  | .alloc _ => inferInstanceAs (Decidable (s.pool.freeListHead = 0 →
      (memPoolMallocObjCnt + s.pool.mallocTimes) * s.pool.objSize_ + sizeofMemBlockNode <
        sizeTValues))
  | .free _ | .write _ _ => isTrue trivial

/-! ## What a step keeps -/

variable {s} {s' : PoolState} {act : PoolAct} {es : List PoolEvent}

theorem objSize_alloc (blk : ℕ) : (s.alloc blk).1.pool.objSize_ = s.pool.objSize_ := by
  rw [alloc, MemPool.allocAMemBlock]
  by_cases hnull : s.pool.freeListHead = 0
  · rw [if_pos hnull]
    rfl
  · rw [if_neg hnull]
    rfl

theorem objSize_free (b : ℕ) : (s.free b).pool.objSize_ = s.pool.objSize_ := by
  rw [free, MemPool.freeAMemBlock]
  by_cases hnull : b = 0
  · rw [if_pos hnull]
  · rw [if_neg hnull]

inductive Step (s : PoolState) : PoolAct → PoolState → List PoolEvent → Prop
  | alloc (blk : ℕ) (hfresh : s.pool.freeListHead = 0 → s.MallocFresh blk) :
      Step s (.alloc blk) (s.alloc blk).1 (s.alloc blk).2
  | free (block : ℕ) : Step s (.free block) (s.free block) []
  | write (x : ℕ) (v : UInt8) :
      Step s (.write x v) { s with mem := Function.update s.mem x v } []

theorem Step.of_step (hs : s.step act = some (s', es)) : s.Step act s' es := by
  cases act with
  | alloc blk =>
    rw [step, Option.ite_none_right_eq_some, Option.some_inj] at hs
    obtain ⟨hfresh, heq⟩ := hs
    obtain ⟨rfl, rfl⟩ := Prod.mk.inj heq
    exact .alloc blk hfresh
  | free block =>
    rw [step, Option.some_inj] at hs
    obtain ⟨rfl, rfl⟩ := Prod.mk.inj hs
    exact .free block
  | write x v =>
    rw [step, Option.some_inj] at hs
    obtain ⟨rfl, rfl⟩ := Prod.mk.inj hs
    exact .write x v

theorem slabs_step (hs : s.step act = some (s', es)) :
    s'.pool.objSize_ = s.pool.objSize_ ∧ ∀ w ∈ s.slabs, w ∈ s'.slabs := by
  cases Step.of_step hs with
  | alloc blk hfresh =>
    refine ⟨objSize_alloc blk, fun w hw ↦ ?_⟩
    change w ∈ s.slabsAfter blk
    rw [slabsAfter]
    split
    · exact List.mem_cons_of_mem _ hw
    · exact hw
  | free block => exact ⟨objSize_free block, fun w hw ↦ hw⟩
  | write x v => exact ⟨rfl, fun w hw ↦ hw⟩

end PoolState

end Copnet
