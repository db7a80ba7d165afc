import Copnet.Memory.Blocks
import Mathlib.Data.Nat.Choose.Basic
import Mathlib.Order.Bounds.Basic

/-!
# How far a pool grows

A slab is allocated when the free list is empty, that is when all blocks are held and one more is
asked for. So a pool has as many slabs as it needs for the largest number of blocks that were held
at one time, and not one more. The demand that its clients make is read off the operations alone.
-/

open ByteMemory Transition

namespace Copnet

/-- The blocks of the first `k` slabs. -/
def carvedCount (k : ℕ) : ℕ := memPoolMallocObjCnt * k + k * (k - 1) / 2

def PoolAct.held (n : ℕ) : PoolAct → ℕ
  | .alloc _ => n + 1
  | .free block => if block = 0 then n else n - 1
  | .write _ _ => n

/-- What clients demand of a pool: how many blocks they hold, and the largest number they have held
at one time. -/
structure Demand where
  /-- The blocks held. -/
  held : ℕ
  /-- The most that have been held. -/
  peak : ℕ
deriving DecidableEq

def Demand.after (d : Demand) (act : PoolAct) : Demand :=
  ⟨act.held d.held, max d.peak (act.held d.held)⟩

def demand (tr : List (PoolAct × List PoolEvent)) : Demand :=
  tr.foldl (fun d op ↦ d.after op.1) ⟨0, 0⟩

@[simp] theorem demand_nil : demand [] = ⟨0, 0⟩ := rfl

@[simp] theorem demand_snoc (tr : List (PoolAct × List PoolEvent)) (act : PoolAct)
    (es : List PoolEvent) : demand (tr ++ [(act, es)]) = (demand tr).after act := by
  rw [demand, List.foldl_append]
  rfl

theorem carvedCount_zero : carvedCount 0 = 0 := by decide

theorem carvedCount_succ (k : ℕ) :
    carvedCount (k + 1) = carvedCount k + memPoolMallocObjCnt + k := by
  have := Nat.triangle_succ k
  rw [carvedCount, carvedCount, this, Nat.mul_succ]
  omega

theorem carvedCount_mono {j k : ℕ} (h : j ≤ k) : carvedCount j ≤ carvedCount k := by
  induction h with
  | refl => exact le_rfl
  | step _ ih =>
    rw [Nat.succ_eq_add_one, carvedCount_succ]
    omega

/-- What the size of a pool has to do with the demand so far. -/
structure Grown (d : Demand) (s : PoolState) : Prop where
  /-- The blocks held are those demanded. -/
  held : s.outstanding.length = d.held
  /-- There is a slab for each call of `malloc`. -/
  slabs : s.slabs.length = s.pool.mallocTimes
  /-- The blocks are those of so many slabs. -/
  blocks : s.blocks.length = carvedCount s.pool.mallocTimes
  /-- They are enough. -/
  enough : d.peak ≤ carvedCount s.pool.mallocTimes
  /-- Those of fewer slabs were not. -/
  needed : ∀ k < s.pool.mallocTimes, carvedCount k < d.peak

section Growth

variable {d : Demand} {s s' : PoolState} {act : PoolAct} {es : List PoolEvent} {b blk : ℕ}

theorem Sound.length_le (h : Sound s) : s.outstanding.length ≤ s.blocks.length := by
  obtain ⟨l, -, hperm⟩ := h.conserved
  rw [← hperm.length_eq, List.length_append]
  exact Nat.le_add_left _ _

theorem Sound.length_eq (h : Sound s) (hnull : s.pool.freeListHead = 0) :
    s.outstanding.length = s.blocks.length := by
  obtain ⟨l, hl, hperm⟩ := h.conserved
  rw [hnull] at hl
  rw [← hperm.length_eq, hl.eq_nil, List.nil_append]

theorem Sound.length_lt (h : Sound s) (hne : s.pool.freeListHead ≠ 0) :
    s.outstanding.length < s.blocks.length := by
  obtain ⟨l, hl, hperm⟩ := h.conserved
  have hpos : 0 < l.length := List.length_pos_of_mem (hl.head_mem hne)
  rw [← hperm.length_eq, List.length_append]
  omega

theorem Grown.take (hg : Grown d s) (h : Sound s) (hne : s.pool.freeListHead ≠ 0)
    (blk : ℕ) : Grown (d.after (.alloc blk)) (s.alloc blk).1 := by
  have hlt := h.length_lt hne
  rw [hg.held, hg.blocks] at hlt
  rw [PoolState.alloc, MemPool.allocAMemBlock, PoolState.slabsAfter, if_neg hne, if_neg hne]
  refine ⟨?_, hg.slabs, hg.blocks, max_le hg.enough hlt, fun k hk ↦ ?_⟩
  · exact congrArg (· + 1) hg.held
  · exact lt_of_lt_of_le (hg.needed k hk) (le_max_left _ _)

theorem Grown.grow (hg : Grown d s) (h : Sound s) (hnull : s.pool.freeListHead = 0)
    (hfresh : s.MallocFresh blk) (hfits : s.Fits (.alloc blk)) :
    Grown (d.after (.alloc blk)) (s.alloc blk).1 := by
  have hslab := hfits.slabOk hnull hfresh h.node
  have heq := h.length_eq hnull
  rw [hg.held, hg.blocks] at heq
  have hcnt := hfits.mallocCnt_eq hnull h.node
  have hlt : s.pool.mallocCnt < sizeTValues := Nat.mod_lt _ (by decide)
  have hforty : 0 < memPoolMallocObjCnt := by decide
  have htimes : (s.pool.mallocTimes + 1) % sizeTValues = s.pool.mallocTimes + 1 :=
    Nat.mod_eq_of_lt (by omega)
  have hsucc := carvedCount_succ s.pool.mallocTimes
  have hblocks : (s.grown blk).blocks.length = carvedCount (s.pool.mallocTimes + 1) := by
    rw [PoolState.blocks_grown hslab h.node, List.length_append, List.length_range', hg.blocks,
      hcnt, hsucc]
    omega
  rw [PoolState.alloc, MemPool.allocAMemBlock, PoolState.slabsAfter, if_pos hnull, if_pos hnull]
  refine ⟨?_, ?_, ?_, ?_, fun k hk ↦ ?_⟩
  · exact congrArg (· + 1) hg.held
  · exact (congrArg (· + 1) hg.slabs).trans htimes.symm
  · exact hblocks.trans (congrArg carvedCount htimes.symm)
  · refine le_of_le_of_eq ?_ (congrArg carvedCount htimes.symm)
    have := hg.enough
    apply max_le
    · omega
    · change d.held + 1 ≤ _
      omega
  · have hk' : k < s.pool.mallocTimes + 1 := lt_of_lt_of_eq hk htimes
    have hmono : carvedCount k ≤ carvedCount s.pool.mallocTimes :=
      carvedCount_mono (Nat.le_of_lt_succ hk')
    refine lt_of_lt_of_le ?_ (le_max_right _ _)
    change carvedCount k < d.held + 1
    omega

theorem Grown.free (hg : Grown d s) (h : Sound s) (hb : b = 0 ∨ b ∈ s.outstanding) :
    Grown (d.after (.free b)) (s.free b) := by
  have hle := h.length_le
  rw [hg.held, hg.blocks] at hle
  have hheld : PoolAct.held d.held (.free b) ≤ d.held := by
    rw [PoolAct.held]
    split <;> omega
  have hmax : d.peak ≤ max d.peak (PoolAct.held d.held (.free b)) := le_max_left _ _
  rw [PoolState.free, MemPool.freeAMemBlock]
  by_cases hnull : b = 0
  · have hnone : b ∉ s.outstanding := fun hout ↦ h.ne_zero (h.mem_blocks hout) hnull
    rw [if_pos hnull, List.erase_of_not_mem hnone]
    refine ⟨?_, hg.slabs, hg.blocks, max_le hg.enough (hheld.trans hle), fun k hk ↦ ?_⟩
    · exact hg.held.trans (if_pos hnull).symm
    · exact lt_of_lt_of_le (hg.needed k hk) hmax
  · have hout : b ∈ s.outstanding := hb.resolve_left hnull
    rw [if_neg hnull]
    refine ⟨?_, hg.slabs, hg.blocks, max_le hg.enough (hheld.trans hle), fun k hk ↦ ?_⟩
    · exact (List.length_erase_of_mem hout).trans
        ((congrArg (· - 1) hg.held).trans (if_neg hnull).symm)
    · exact lt_of_lt_of_le (hg.needed k hk) hmax

theorem Grown.step (hg : Grown d s) (h : Sound s) (hguard : s.Guard act)
    (hs : s.step act = some (s', es)) : Grown (d.after act) s' := by
  obtain ⟨hrules, hfits⟩ := hguard
  cases PoolState.Step.of_step hs with
  | alloc blk hfresh =>
    by_cases hnull : s.pool.freeListHead = 0
    · exact hg.grow h hnull (hfresh hnull) hfits
    · exact hg.take h hnull blk
  | free block => exact hg.free h hrules
  | write x v =>
    have hle := h.length_le
    rw [hg.held, hg.blocks] at hle
    exact ⟨hg.held, hg.slabs, hg.blocks, max_le hg.enough hle,
      fun k hk ↦ lt_of_lt_of_le (hg.needed k hk) (le_max_left _ _)⟩

end Growth

/-! ## Whole runs -/

section Runs

variable {s₀ s : PoolState} {tr : List (PoolAct × List PoolEvent)}

theorem grown_run (h₀ : PoolState.machine.init s₀)
    (h : Run PoolState.machine PoolState.Guard s₀ tr s) : Grown (demand tr) s := by
  refine h.history (P := fun tr s ↦ Grown (demand tr) s) ?_ fun hrun hg hguard hs ↦ ?_
  · obtain ⟨objSize, -, mem, rfl⟩ := h₀
    exact ⟨rfl, rfl, carvedCount_zero.symm, Nat.zero_le _,
      fun k hk ↦ absurd hk (Nat.not_lt_zero k)⟩
  · rw [demand_snoc]
    exact hg.step (sound_run h₀ hrun) hguard hs

/-- **A pool grows as far as its peak use demands.** In every run in which clients free what they
hold and write to what they hold, and in which the sizes of slabs do not wrap: `malloc` has been
called the least number of times for which so many slabs have a block for each of the most that were
held at one time, and the blocks there are, each once, are those of so many slabs. -/
theorem memPool_growth (h₀ : PoolState.machine.init s₀)
    (h : Run PoolState.machine PoolState.Guard s₀ tr s) :
    s.outstanding.length = (demand tr).held ∧ s.slabs.length = s.pool.mallocTimes ∧
      IsLeast {k | (demand tr).peak ≤ carvedCount k} s.pool.mallocTimes ∧
      s.blocks.Nodup ∧ s.blocks.length = carvedCount s.pool.mallocTimes := by
  have hg := grown_run h₀ h
  refine ⟨hg.held, hg.slabs, ⟨hg.enough, fun k hk ↦ ?_⟩, (sound_run h₀ h).blocks_nodup, hg.blocks⟩
  by_contra hlt
  exact absurd (hg.needed k (not_le.mp hlt)) (not_lt.mpr hk)

/-- Forty-one blocks are taken and one is freed. -/
def takenFortyOne : List PoolAct :=
  .alloc 64 :: List.replicate 39 (.alloc 0) ++ [.alloc 1024, .free 1352]

theorem memPool_growth_forty_one :
    ∃ tr s, Run PoolState.machine PoolState.Guard (.start 8 fun _ ↦ 0) tr s ∧
      demand tr = ⟨40, 41⟩ ∧
      IsLeast {k | (demand tr).peak ≤ carvedCount k} s.pool.mallocTimes := by
  have h := run_after (M := PoolState.machine) (C := PoolState.Guard)
    (s := .start 8 fun _ ↦ 0) takenFortyOne
  exact ⟨_, _, h, by decide +kernel,
    (memPool_growth ⟨8, by decide, _, rfl⟩ h).2.2.1⟩

/-- The free list of a pool of four blocks runs in a circle, and forty-one are taken from it. -/
theorem memPool_growth_fails_wrapped :
    ¬ ∀ (s₀ s : PoolState) (tr : List (PoolAct × List PoolEvent)), PoolState.machine.init s₀ →
      Run PoolState.machine PoolState.Disciplined s₀ tr s →
      IsLeast {k | (demand tr).peak ≤ carvedCount k} s.pool.mallocTimes := by
  intro h
  have hrun := run_after (M := PoolState.machine) (C := PoolState.Disciplined) (s := hugeBlocks)
    (.alloc 64 :: List.replicate 40 (.alloc 0))
  have henough := (h _ _ _ ⟨2 ^ 62, by decide, _, rfl⟩ hrun).1
  rw [Set.mem_ofPred_eq] at henough
  exact absurd henough (by decide +kernel)

end Runs

end Copnet
