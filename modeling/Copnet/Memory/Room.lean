import Copnet.Memory.Growth

/-!
# When the sizes of slabs do not wrap

The slabs of a pool do not overlap, so all of them together have room in the address space. From the
third on, a slab is smaller than those before it together; its size can wrap only if they have no
room. So it is enough that the size of the second slab does not wrap, which is a condition on the
size of a block alone.
-/

open ByteMemory Transition

namespace Copnet

/-- The blocks of the second slab and its header take less than the address space. -/
def SmallBlocks (objSize_ : ℕ) : Prop :=
  (memPoolMallocObjCnt + 1) * objSize_ + sizeofMemBlockNode < sizeTValues

section Room

variable {s₀ s s' : PoolState} {act : PoolAct} {es : List PoolEvent} {d : Demand}
  {tr : List (PoolAct × List PoolEvent)}

theorem length_carved (o n p : ℕ) : (MemPool.carved o n p).length = n := by
  induction n generalizing p with
  | zero => rfl
  | succ n ih => rw [MemPool.carved, List.length_cons, ih]

theorem sum_sizes_eq {o : ℕ} {slabs : List Slab} (h : ∀ w ∈ slabs, SlabOk o w) :
    (slabs.map Slab.size).sum =
      (slabs.map Slab.cnt).sum * o + slabs.length * sizeofMemBlockNode := by
  induction slabs with
  | nil => simp
  | cons w slabs ih =>
    rw [List.forall_mem_cons] at h
    rw [List.map_cons, List.map_cons, List.sum_cons, List.sum_cons, ih h.2, h.1.size,
      List.length_cons, Nat.add_mul, Nat.succ_mul]
    omega

/-- All slabs together have room in the address space. -/
theorem Sound.room (h : Sound s) (hg : Grown d s) :
    carvedCount s.pool.mallocTimes * s.pool.objSize_ + s.pool.mallocTimes * sizeofMemBlockNode ≤
      sizeTValues := by
  have hcnt : s.blocks.length = (s.slabs.map Slab.cnt).sum := by
    rw [PoolState.blocks, List.length_flatMap]
    simp only [PoolState.blocksOf, length_carved]
  have hfits : ∀ r ∈ s.slabs.map fun w ↦ (w.base, w.size), r.1 + r.2 ≤ sizeTValues := by
    intro r hr
    obtain ⟨w, hw, rfl⟩ := List.mem_map.mp hr
    exact (h.slabOk w hw).fits
  have hsum := sum_sizes_le (List.pairwise_map.mpr h.apart) hfits
  rw [List.map_map] at hsum
  have heq := sum_sizes_eq h.slabOk
  rw [← hcnt, hg.blocks, hg.slabs] at heq
  exact heq ▸ hsum

/-- From the third slab on, one more block than the next slab has is carved already. -/
theorem lt_carvedCount {k : ℕ} (hk : 2 ≤ k) : memPoolMallocObjCnt + k < carvedCount k := by
  induction k, hk using Nat.le_induction with
  | base => decide
  | succ k hk ih =>
    rw [carvedCount_succ]
    omega

theorem Sound.fits (h : Sound s) (hg : Grown d s) (hsmall : SmallBlocks s.pool.objSize_)
    (act : PoolAct) : s.Fits act := by
  cases act with
  | free block => trivial
  | write x v => trivial
  | alloc blk =>
    intro hnull
    rcases Nat.lt_or_ge s.pool.mallocTimes 2 with hlt | hge
    · have hle : (memPoolMallocObjCnt + s.pool.mallocTimes) * s.pool.objSize_ ≤
          (memPoolMallocObjCnt + 1) * s.pool.objSize_ := Nat.mul_le_mul_right _ (by omega)
      exact lt_of_le_of_lt (Nat.add_le_add_right hle _) hsmall
    · have hroom := h.room hg
      have hnode := h.node
      have hpos : 0 < sizeofMemBlockNode := by decide
      have hle : (memPoolMallocObjCnt + s.pool.mallocTimes + 1) * s.pool.objSize_ ≤
          carvedCount s.pool.mallocTimes * s.pool.objSize_ :=
        Nat.mul_le_mul_right _ (lt_carvedCount hge)
      have hheader : 2 * sizeofMemBlockNode ≤ s.pool.mallocTimes * sizeofMemBlockNode :=
        Nat.mul_le_mul_right _ hge
      rw [Nat.succ_mul] at hle
      omega

/-- **Small blocks never wrap.** If the second slab fits into the address space, the sizes of slabs
do not wrap in any run in which clients keep to their rules. -/
theorem guard_of_smallBlocks {objSize : ℕ} {mem : Mem} (hlt : objSize < sizeTValues)
    (hsmall : SmallBlocks (max objSize sizeofMemBlockNode))
    (h : Run PoolState.machine PoolState.Disciplined (.start objSize mem) tr s) :
    Run PoolState.machine PoolState.Guard (.start objSize mem) tr s := by
  have h₀ : PoolState.machine.init (.start objSize mem) := ⟨objSize, hlt, mem, rfl⟩
  have hkeep : Run PoolState.machine PoolState.Guard (.start objSize mem) tr s ∧
      s.pool.objSize_ = max objSize sizeofMemBlockNode := by
    induction h with
    | nil =>
      refine ⟨.nil, ?_⟩
      change (if objSize < sizeofMemBlockNode then sizeofMemBlockNode else objSize) = _
      split <;> omega
    | @snoc tr t u act es hr hrules hs ih =>
      obtain ⟨hrun, hstride⟩ := ih
      have hfits := (sound_run h₀ hrun).fits (grown_run h₀ hrun) (hstride ▸ hsmall) act
      exact ⟨hrun.snoc ⟨hrules, hfits⟩ hs, (PoolState.slabs_step hs).1.trans hstride⟩
  exact hkeep.1

end Room

end Copnet
