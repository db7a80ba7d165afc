import Copnet.Memory.Frame

/-!
# Several pools in one memory

Every processor has a pool of its own, and a block goes back to the pool it came from. The pools
know nothing of each other, but they get their slabs from one `malloc`, and the links of all of them
stand in one memory, between the blocks that the clients of all of them write to.

The machine here is any number of pools. Each of them sees a `PoolState`, its `part`; what another
pool does with the memory is outside of its slabs.
-/

open ByteMemory Transition

namespace Copnet

/-- Pools, their memory, what `malloc` has given to them and what they have given away. -/
structure Pools (ι : Type) where
  /-- The pool objects. -/
  pool : ι → MemPool
  /-- The memory. -/
  mem : Mem
  /-- The slabs of all pools, the latest first. -/
  slabs : List (ι × Slab)
  /-- The blocks that the clients of a pool hold. -/
  outstanding : ι → List ℕ

inductive PoolsAct (ι : Type)
  /-- `AllocAMemBlock()` on `q`, where `malloc` answers `newMallocBlk` if it is called. -/
  | alloc (q : ι) (newMallocBlk : ℕ)
  /-- `FreeAMemBlock(block)` on `q`. -/
  | free (q : ι) (block : ℕ)
  /-- Somebody writes a byte to memory. -/
  | write (x : ℕ) (v : UInt8)

inductive PoolsEvent (ι : Type)
  /-- `AllocAMemBlock` on `q` returns `ret`. -/
  | allocated (q : ι) (ret : ℕ)
deriving DecidableEq

namespace Pools

variable {ι : Type} [DecidableEq ι] (s : Pools ι)

def start (objSize : ι → ℕ) (mem : Mem) : Pools ι :=
  ⟨fun q ↦ .created (objSize q), mem, [], fun _ ↦ []⟩

def slabsOf (q : ι) : List Slab := (s.slabs.filter (·.1 = q)).map Prod.snd

/-- What `q` sees. -/
def part (q : ι) : PoolState := ⟨s.pool q, s.mem, s.slabsOf q, s.outstanding q⟩

/-- `malloc` may answer `blk` to `q`: it is memory, and none of it belongs to a slab. -/
def MallocFresh (q : ι) (blk : ℕ) : Prop :=
  blk ≠ 0 ∧ blk + (s.pool q).mallocSize ≤ sizeTValues ∧
    ∀ e ∈ s.slabs, Apart blk (s.pool q).mallocSize e.2.base e.2.size

instance (q : ι) (blk : ℕ) : Decidable (s.MallocFresh q blk) :=
  inferInstanceAs (Decidable (_ ∧ _ ∧ _))

/-- `AllocAMemBlock` on `q`: the pools after it, and what it returns. -/
def alloc (q : ι) (blk : ℕ) : Pools ι × ℕ :=
  let (pool, mem, ret) := (s.pool q).allocAMemBlock s.mem blk
  (⟨Function.update s.pool q pool, mem,
    if (s.pool q).freeListHead = 0 then
      (q, ⟨blk, (s.pool q).mallocSize, (s.pool q).mallocCnt⟩) :: s.slabs
    else s.slabs,
    Function.update s.outstanding q (ret :: s.outstanding q)⟩, ret)

def free (q : ι) (block : ℕ) : Pools ι :=
  let (pool, mem) := (s.pool q).freeAMemBlock s.mem block
  ⟨Function.update s.pool q pool, mem, s.slabs,
    Function.update s.outstanding q ((s.outstanding q).erase block)⟩

def write (x : ℕ) (v : UInt8) : Pools ι := { s with mem := Function.update s.mem x v }

def step : PoolsAct ι → Option (Pools ι × List (PoolsEvent ι))
  | .alloc q blk =>
    if (s.pool q).freeListHead = 0 → s.MallocFresh q blk then
      some ((s.alloc q blk).1, [.allocated q (s.alloc q blk).2])
    else none
  | .free q block => some (s.free q block, [])
  | .write x v => some (s.write x v, [])

variable (ι) in
def machine : Machine (Pools ι) (PoolsAct ι) (PoolsEvent ι) where
  init s := ∃ objSize : ι → ℕ, (∀ q, objSize q < sizeTValues) ∧ ∃ mem, s = start objSize mem
  step := step

def InUse (x : ℕ) : Prop :=
  ∃ e ∈ s.slabs, ∃ b ∈ s.outstanding e.1, b ≤ x ∧ x < b + (s.pool e.1).objSize_

def InSlab (x : ℕ) : Prop := ∃ e ∈ s.slabs, e.2.base ≤ x ∧ x < e.2.base + e.2.size

instance (x : ℕ) : Decidable (s.InUse x) := inferInstanceAs (Decidable (∃ e ∈ s.slabs, _))

instance (x : ℕ) : Decidable (s.InSlab x) := inferInstanceAs (Decidable (∃ e ∈ s.slabs, _))

/-- The clients free null or a block they hold of the same pool, they write to the pools' memory
only inside of blocks they hold, and the sizes of slabs do not wrap. -/
def Guard : PoolsAct ι → Prop
  | .alloc q blk => (s.part q).Fits (.alloc blk)
  | .free q block => block = 0 ∨ block ∈ s.outstanding q
  | .write x _ => s.InSlab x → s.InUse x

instance : (act : PoolsAct ι) → Decidable (s.Guard act)
  | .alloc q blk => inferInstanceAs (Decidable ((s.part q).Fits (.alloc blk)))
  | .free q block => inferInstanceAs (Decidable (block = 0 ∨ block ∈ s.outstanding q))
  | .write x _ => inferInstanceAs (Decidable (s.InSlab x → s.InUse x))

/-! ## What each pool sees -/

variable {s} {p q : ι} {blk b c x : ℕ} {w : Slab} {e : ι × Slab}

theorem mem_slabsOf : w ∈ s.slabsOf q ↔ (q, w) ∈ s.slabs := by
  simp [slabsOf, and_comm]

theorem MallocFresh.part (h : s.MallocFresh q blk) : (s.part q).MallocFresh blk :=
  ⟨h.1, h.2.1, fun w hw ↦ h.2.2 (q, w) (mem_slabsOf.mp hw)⟩

theorem alloc_part : (s.alloc q blk).1.part q = ((s.part q).alloc blk).1 := by
  simp only [part, alloc, PoolState.alloc, PoolState.slabsAfter, slabsOf, Function.update_self]
  by_cases hnull : (s.pool q).freeListHead = 0 <;> simp [hnull]

theorem alloc_ret : ((s.part q).alloc blk).2 = [.allocated (s.alloc q blk).2] := rfl

theorem slabs_alloc (he : e ∈ s.slabs) : e ∈ (s.alloc q blk).1.slabs := by
  change e ∈ if _ then _ else _
  split
  · exact List.mem_cons_of_mem _ he
  · exact he

theorem ret_mem_outstanding : (s.alloc q blk).2 ∈ ((s.alloc q blk).1.part q).outstanding := by
  change _ ∈ Function.update s.outstanding q _ q
  rw [Function.update_self]
  exact List.mem_cons_self

theorem mem_outstanding_alloc : b ∈ (s.alloc q blk).1.outstanding p ↔
    p = q ∧ b = (s.alloc q blk).2 ∨ b ∈ s.outstanding p := by
  change b ∈ Function.update s.outstanding q ((s.alloc q blk).2 :: s.outstanding q) p ↔ _
  by_cases hpq : p = q
  · subst hpq
    simp
  · simp [hpq]

theorem alloc_part_of_ne (h : p ≠ q) :
    (s.alloc q blk).1.part p = { s.part p with mem := (s.alloc q blk).1.mem } := by
  simp only [part, alloc, slabsOf, Function.update_of_ne h]
  split <;> simp [h.symm]

theorem free_part : (s.free q b).part q = (s.part q).free b := by
  simp only [part, free, PoolState.free, slabsOf, Function.update_self]

theorem free_part_of_ne (h : p ≠ q) :
    (s.free q b).part p = { s.part p with mem := (s.free q b).mem } := by
  simp only [part, free, slabsOf, Function.update_of_ne h]

theorem mem_outstanding_free (h : (s.outstanding q).Nodup) :
    b ∈ (s.free q c).outstanding p ↔ b ∈ s.outstanding p ∧ ¬(p = q ∧ b = c) := by
  change b ∈ Function.update s.outstanding q ((s.outstanding q).erase c) p ↔ _
  by_cases hpq : p = q
  · subst hpq
    simp [h.mem_erase_iff, and_comm]
  · simp [hpq]

theorem alloc_mem : (s.alloc q blk).1.mem = ((s.part q).alloc blk).1.mem := by
  rw [← alloc_part]
  rfl

theorem free_mem : (s.free q b).mem = ((s.part q).free b).mem := by
  rw [← free_part]
  rfl

end Pools

/-- Nothing of a pool is outside of its slabs. -/
theorem Sound.of_slabs {s : PoolState} {mem : Mem} (h : Sound s)
    (hmem : ∀ w ∈ s.slabs, ∀ x, w.base ≤ x → x < w.base + w.size → mem x = s.mem x) :
    Sound { s with mem } := by
  apply h.of_mem
  · intro b hb _
    obtain ⟨w, hw, hlow, hhigh⟩ := h.inside hb
    have hnode := h.node
    exact load_congr fun x hx hx' ↦ hmem w hw x (by omega) (by omega)
  · intro w hw
    have hsize := (h.slabOk w hw).size
    exact load_congr fun x hx hx' ↦ hmem w hw x hx (by omega)

namespace Pools

variable {ι : Type} [DecidableEq ι] {s s' : Pools ι} {act : PoolsAct ι} {es : List (PoolsEvent ι)}
  {tr : List (PoolsAct ι × List (PoolsEvent ι))} {p q : ι} {blk b c x : ℕ} {v : UInt8}
  {w w' : Slab}

/-! ## What holds at any time -/

/-- The pools are sound, each for itself, and do not share memory. -/
structure Separate (s : Pools ι) : Prop where
  /-- Each pool is sound. -/
  part : ∀ q, Sound (s.part q)
  /-- Slabs do not overlap, whose ever they are. -/
  apart : s.slabs.Pairwise fun e e' ↦ Apart e.2.base e.2.size e'.2.base e'.2.size

namespace Separate

theorem slabs_of_ne (h : s.Separate) (hw : w ∈ s.slabsOf p) (hw' : w' ∈ s.slabsOf q)
    (hne : p ≠ q) : Apart w.base w.size w'.base w'.size := by
  have hsymm : Std.Symm fun e e' : ι × Slab ↦ Apart e.2.base e.2.size e'.2.base e'.2.size :=
    ⟨fun _ _ ↦ apart_comm.mp⟩
  exact h.apart.forall (mem_slabsOf.mp hw) (mem_slabsOf.mp hw') (by simp [hne])

theorem blocks_of_ne (h : s.Separate) (hb : b ∈ (s.part p).blocks) (hc : c ∈ (s.part q).blocks)
    (hne : p ≠ q) : Apart b (s.pool p).objSize_ c (s.pool q).objSize_ := by
  obtain ⟨w, hw, hlow, hhigh⟩ := (h.part p).inside hb
  obtain ⟨w', hw', hlow', hhigh'⟩ := (h.part q).inside hc
  have hapart := h.slabs_of_ne hw hw' hne
  simp only [Pools.part] at hhigh hhigh'
  unfold Apart at hapart ⊢
  omega

theorem mem_alloc (h : s.Separate) (hfresh : (s.pool q).freeListHead = 0 → s.MallocFresh q blk)
    (hfits : (s.part q).Fits (.alloc blk)) (hw : (p, w) ∈ s.slabs) (hlow : w.base ≤ x)
    (hhigh : x < w.base + w.size) : (s.alloc q blk).1.mem x = s.mem x := by
  have hq := h.part q
  rw [alloc_mem, PoolState.alloc, MemPool.allocAMemBlock]
  by_cases hnull : (s.part q).pool.freeListHead = 0
  · rw [if_pos hnull]
    have happart : Apart blk (s.part q).pool.mallocSize w.base w.size :=
      (hfresh hnull).2.2 (p, w) hw
    refine PoolState.mem_grown (hfits.slabOk hnull (hfresh hnull).part hq.node) hq.node hnull ?_
    unfold Apart at happart
    omega
  · rw [if_neg hnull]
    rfl

theorem mem_free (h : s.Separate) (hb : b = 0 ∨ b ∈ s.outstanding q) (hw : w ∈ s.slabsOf p)
    (hne : p ≠ q) (hlow : w.base ≤ x) (hhigh : x < w.base + w.size) :
    (s.free q b).mem x = s.mem x := by
  rw [free_mem]
  refine Sound.mem_free (s := s.part q) hb fun hout ↦ ?_
  obtain ⟨w', hw', hlow', hhigh'⟩ := (h.part q).inside ((h.part q).mem_blocks hout)
  have happart := h.slabs_of_ne hw hw' hne
  have hnode := (h.part q).node
  unfold Apart at happart
  omega

theorem alloc (h : s.Separate) (hfresh : (s.pool q).freeListHead = 0 → s.MallocFresh q blk)
    (hfits : (s.part q).Fits (.alloc blk)) : (s.alloc q blk).1.Separate := by
  constructor
  · intro p
    by_cases hpq : p = q
    · subst hpq
      rw [alloc_part]
      exact ((h.part p).alloc (fun hnull ↦ (hfresh hnull).part) hfits).1
    · rw [alloc_part_of_ne hpq]
      exact (h.part p).of_slabs fun w hw x hlow hhigh ↦
        h.mem_alloc hfresh hfits (mem_slabsOf.mp hw) hlow hhigh
  · simp only [Pools.alloc]
    split
    · next hnull => exact List.pairwise_cons.mpr ⟨(hfresh hnull).2.2, h.apart⟩
    · exact h.apart

theorem free (h : s.Separate) (hb : b = 0 ∨ b ∈ s.outstanding q) : (s.free q b).Separate := by
  refine ⟨fun p ↦ ?_, h.apart⟩
  by_cases hpq : p = q
  · subst hpq
    rw [free_part]
    exact (h.part p).free hb
  · rw [free_part_of_ne hpq]
    exact (h.part p).of_slabs fun w hw x hlow hhigh ↦ h.mem_free hb hw hpq hlow hhigh

/-- Where a byte of one pool's slabs is held, a client of that pool holds it. -/
theorem inUse_part (h : s.Separate) (hx : s.InSlab x → s.InUse x) (hin : (s.part q).InSlab x) :
    (s.part q).InUse x := by
  obtain ⟨w, hw, hlow, hhigh⟩ := hin
  obtain ⟨⟨p, w'⟩, -, b, hb, hle, hlt⟩ := hx ⟨(q, w), mem_slabsOf.mp hw, hlow, hhigh⟩
  by_cases hpq : p = q
  · subst hpq
    exact ⟨b, hb, hle, hlt⟩
  · obtain ⟨w₁, hw₁, hlow₁, hhigh₁⟩ := (h.part p).inside ((h.part p).mem_blocks hb)
    have happart := h.slabs_of_ne hw₁ hw hpq
    simp only [Pools.part] at hhigh₁ hlt
    unfold Apart at happart
    omega

theorem write (h : s.Separate) (hx : s.InSlab x → s.InUse x) : (s.write x v).Separate :=
  ⟨fun q ↦ (h.part q).write (h.inUse_part hx), h.apart⟩

end Separate

/-! ## Steps -/

inductive Step (s : Pools ι) : PoolsAct ι → Pools ι → List (PoolsEvent ι) → Prop
  | alloc (q : ι) (blk : ℕ) (hfresh : (s.pool q).freeListHead = 0 → s.MallocFresh q blk) :
      Step s (.alloc q blk) (s.alloc q blk).1 [.allocated q (s.alloc q blk).2]
  | free (q : ι) (block : ℕ) : Step s (.free q block) (s.free q block) []
  | write (x : ℕ) (v : UInt8) : Step s (.write x v) (s.write x v) []

theorem Step.of_step (hs : s.step act = some (s', es)) : s.Step act s' es := by
  cases act with
  | alloc q blk =>
    rw [step, Option.ite_none_right_eq_some, Option.some_inj] at hs
    obtain ⟨hfresh, heq⟩ := hs
    obtain ⟨rfl, rfl⟩ := Prod.mk.inj heq
    exact .alloc q blk hfresh
  | free q block =>
    rw [step, Option.some_inj] at hs
    obtain ⟨rfl, rfl⟩ := Prod.mk.inj hs
    exact .free q block
  | write x v =>
    rw [step, Option.some_inj] at hs
    obtain ⟨rfl, rfl⟩ := Prod.mk.inj hs
    exact .write x v

theorem Separate.step (h : s.Separate) (hguard : s.Guard act) (hs : s.Step act s' es) :
    s'.Separate := by
  cases hs with
  | alloc q blk hfresh => exact h.alloc hfresh hguard
  | free q block => exact h.free hguard
  | write x v => exact h.write hguard

theorem Step.objSize (hs : s.Step act s' es) (p : ι) :
    (s'.pool p).objSize_ = (s.pool p).objSize_ := by
  cases hs with
  | alloc q blk =>
    by_cases hpq : p = q
    · subst hpq
      have hstride := PoolState.objSize_alloc (s := s.part p) blk
      rwa [← alloc_part] at hstride
    · exact congrArg (·.pool.objSize_) (alloc_part_of_ne hpq)
  | free q block =>
    by_cases hpq : p = q
    · subst hpq
      have hstride := PoolState.objSize_free (s := s.part p) block
      rwa [← free_part] at hstride
    · exact congrArg (·.pool.objSize_) (free_part_of_ne hpq)
  | write => rfl

theorem Step.blocks (hs : s.Step act s' es) (hb : b ∈ (s.part p).blocks) :
    b ∈ (s'.part p).blocks := by
  have hslabs : ∀ e ∈ s.slabs, e ∈ s'.slabs := by
    cases hs with
    | alloc => exact fun e he ↦ slabs_alloc he
    | free | write => exact fun e he ↦ he
  obtain ⟨w, hw, hbw⟩ := List.mem_flatMap.mp hb
  refine List.mem_flatMap.mpr ⟨w, mem_slabsOf.mpr (hslabs _ (mem_slabsOf.mp hw)), ?_⟩
  rw [PoolState.blocksOf] at hbw ⊢
  rwa [show (s'.part p).pool.objSize_ = (s.part p).pool.objSize_ from hs.objSize p]

theorem Separate.handedOut (h : s.Separate)
    (hfresh : (s.pool q).freeListHead = 0 → s.MallocFresh q blk)
    (hfits : (s.part q).Fits (.alloc blk)) :
    HandedOut (s.part q) ((s.alloc q blk).1.part q) (s.alloc q blk).2 := by
  obtain ⟨-, ret, hret, hout⟩ := (h.part q).alloc (fun hnull ↦ (hfresh hnull).part) hfits
  obtain rfl : (s.alloc q blk).2 = ret := by simpa [alloc_ret] using hret
  rwa [alloc_part]

theorem Separate.ret_mem_blocks (h : s.Separate)
    (hfresh : (s.pool q).freeListHead = 0 → s.MallocFresh q blk)
    (hfits : (s.part q).Fits (.alloc blk)) :
    (s.alloc q blk).2 ∈ ((s.alloc q blk).1.part q).blocks :=
  ((h.alloc hfresh hfits).part q).mem_blocks ret_mem_outstanding

/-- The operations of the pools themselves write to no block that is held before and after. -/
theorem Separate.framed (h : s.Separate) (hguard : s.Guard act) (hs : s.Step act s' es)
    (hact : ∀ x v, act ≠ .write x v) (hb : b ∈ s.outstanding p) (hb' : b ∈ s'.outstanding p)
    (hlow : b ≤ x) (hhigh : x < b + (s.pool p).objSize_) : s'.mem x = s.mem x := by
  have hblock := (h.part p).mem_blocks hb
  obtain ⟨w, hw, hbase, hend⟩ := (h.part p).inside hblock
  simp only [Pools.part] at hend
  cases hs with
  | alloc q blk hfresh =>
    exact h.mem_alloc hfresh hguard (mem_slabsOf.mp hw) (by omega) (by omega)
  | free q block =>
    by_cases hpq : p = q
    · subst hpq
      have hne : block ≠ b := by
        rintro rfl
        change block ∈ Function.update s.outstanding p _ p at hb'
        rw [Function.update_self] at hb'
        exact (h.part p).nodup_outstanding.not_mem_erase hb'
      rw [free_mem]
      exact (h.part p).mem_free_block hguard hb hne hlow hhigh
    · exact h.mem_free hguard hw hpq (by omega) (by omega)
  | write x v => exact absurd rfl (hact x v)

/-! ## Whole runs -/

theorem separate_init (h₀ : (machine ι).init s) : s.Separate := by
  obtain ⟨objSize, hsize, mem, rfl⟩ := h₀
  exact ⟨fun q ↦ sound_init ⟨objSize q, hsize q, mem, rfl⟩, .nil⟩

theorem separate_run (h₀ : (machine ι).init s) (h : Run (machine ι) Guard s tr s') :
    s'.Separate ∧ ∀ q b, .allocated q b ∈ events tr → b ∈ (s'.part q).blocks := by
  refine h.history (P := fun tr s ↦
    s.Separate ∧ ∀ q b, .allocated q b ∈ events tr → b ∈ (s.part q).blocks) ?_ ?_
  · exact ⟨separate_init h₀, fun q b hmem ↦ absurd hmem List.not_mem_nil⟩
  · rintro tr s s' act es - ⟨hsep, hblocks⟩ hguard hstep
    have hs := Step.of_step hstep
    refine ⟨hsep.step hguard hs, fun q b hmem ↦ ?_⟩
    rw [events_append, events_singleton] at hmem
    rcases List.mem_append.mp hmem with hold | hnew
    · exact hs.blocks (hblocks q b hold)
    · cases hs with
      | alloc q' blk hfresh =>
        obtain ⟨rfl, rfl⟩ : q = q' ∧ b = (s.alloc q' blk).2 := by simpa using hnew
        exact hsep.ret_mem_blocks hfresh hguard
      | free | write => exact absurd hnew List.not_mem_nil

/-- **Pools do not share memory.** In every run of any number of pools in which clients free what
they hold of the same pool and write to what they hold, and in which the sizes of slabs do not wrap:
every pool has all of its blocks on its free list or in the hands of clients; blocks that different
pools have ever handed out do not overlap; and no pool, when it hands out a block or takes one back,
changes a byte of a block of any pool that is held meanwhile. -/
theorem pools_disjoint {s₀ s : Pools ι} (h₀ : (machine ι).init s₀)
    (h : Run (machine ι) Guard s₀ tr s) :
    (∀ q, NoneLost (s.part q)) ∧
      (∀ p q b c, p ≠ q → .allocated p b ∈ events tr → .allocated q c ∈ events tr →
        Apart b (s.pool p).objSize_ c (s.pool q).objSize_) ∧
      ∀ act s' es, s.Guard act → s.step act = some (s', es) →
        (∀ q ret, .allocated q ret ∈ es → HandedOut (s.part q) (s'.part q) ret) ∧
          ((∀ x v, act ≠ .write x v) → ∀ p, ∀ b ∈ s.outstanding p, b ∈ s'.outstanding p →
            ∀ x, b ≤ x → x < b + (s.pool p).objSize_ → s'.mem x = s.mem x) := by
  obtain ⟨hsep, hblocks⟩ := separate_run h₀ h
  refine ⟨fun q ↦ (hsep.part q).noneLost, ?_, ?_⟩
  · intro p q b c hne hb hc
    exact hsep.blocks_of_ne (hblocks p b hb) (hblocks q c hc) hne
  · intro act s' es hguard hstep
    have hs := Step.of_step hstep
    refine ⟨fun q ret hret ↦ ?_, fun hact p b hb hb' x hlow hhigh ↦ ?_⟩
    · cases hs with
      | alloc q' blk hfresh =>
        obtain ⟨rfl, rfl⟩ : q = q' ∧ ret = (s.alloc q' blk).2 := by simpa using hret
        exact hsep.handedOut hfresh hguard
      | free | write => exact absurd hret List.not_mem_nil
    · exact hsep.framed hguard hs hact hb hb' hlow hhigh

/-- Two pools, of blocks of twelve and of twenty bytes, take a block each; the first block is
written to its last byte, freed and taken again. -/
def takenFromTwo : List (PoolsAct Bool) :=
  [.alloc false 64, .alloc true 552, .write 551 255, .free false 540, .alloc false 0]

theorem pools_disjoint_two : ∃ tr s, Run (machine Bool) Guard
      (.start (fun q ↦ if q then 20 else 12) fun _ ↦ 0) tr s ∧
    events tr = [.allocated false 540, .allocated true 1340, .allocated false 540] ∧
      Apart 540 (s.pool false).objSize_ 1340 (s.pool true).objSize_ := by
  let s₀ : Pools Bool := .start (fun q ↦ if q then 20 else 12) fun _ ↦ 0
  have h : Run (machine Bool) Guard s₀ _ _ := run_after takenFromTwo
  have hevents : events ((machine Bool).after Guard s₀ takenFromTwo).2 =
      [.allocated false 540, .allocated true 1340, .allocated false 540] := by decide +kernel
  have hinit : (machine Bool).init s₀ := ⟨_, by decide, _, rfl⟩
  exact ⟨_, _, h, hevents, (pools_disjoint hinit h).2.1 false true 540 1340 (by decide)
    (by simp [hevents]) (by simp [hevents])⟩

end Pools

end Copnet
