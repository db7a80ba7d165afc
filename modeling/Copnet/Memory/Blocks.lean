import Copnet.Memory.MemPool
import Mathlib.Data.List.Range

/-!
# No block is lost, and none is given out twice

`Sound` is what holds of a pool at any time: the slabs are disjoint, the free list and the list of
slabs are threaded through memory, and the free blocks together with those that clients hold are the
blocks carved from the slabs, each once. What a client writes does not matter to the two lists,
since all that they read is in free blocks and in headers. The blocks of a slab lie in it only if
its size was computed without wrapping, which is what the runs are required to do.
-/

open ByteMemory Transition

namespace Copnet

/-- What is expected of a block `ret` that is handed out in the state `s`, which leads to `s'`. -/
structure HandedOut (s s' : PoolState) (ret : ℕ) : Prop where
  /-- Nobody held it. -/
  free : ret ∉ s.outstanding
  /-- It lies in a slab, after the header. -/
  inside : ∃ w ∈ s'.slabs, w.base + sizeofMemBlockNode ≤ ret ∧
    ret + s.pool.objSize_ ≤ w.base + w.size
  /-- It overlaps no other block that is held. -/
  alone : ∀ b ∈ s.outstanding, Apart ret s.pool.objSize_ b s.pool.objSize_
  /-- It overlaps no header. -/
  headers : ∀ w ∈ s'.slabs, Apart ret s.pool.objSize_ w.base sizeofMemBlockNode

/-- The free list comes to an end, has no node twice, and holds all blocks that nobody holds. -/
def NoneLost (s : PoolState) : Prop :=
  ∃ l, Threaded sizeofMemBlockNode s.mem s.pool.freeListHead l ∧ l.Nodup ∧
    (l ++ s.outstanding).Perm s.blocks ∧ s.blocks.Nodup

/-! ## Strides -/

section Stride

variable {m : Mem} {o n p head x : ℕ} {l : List ℕ}

/-- Without wrapping, the loop goes through memory in strides. -/
theorem carved_eq_range' (ho : 0 < o) (h : p + n * o ≤ sizeTValues) :
    MemPool.carved o n p = List.range' p n o := by
  induction n generalizing p with
  | zero => rfl
  | succ n ih =>
    rw [Nat.succ_mul] at h
    rw [MemPool.carved, List.range'_succ]
    cases n with
    | zero => rfl
    | succ n =>
      have hlt : p + o < sizeTValues := by
        rw [Nat.succ_mul] at h
        omega
      rw [Nat.mod_eq_of_lt hlt, ih (by omega)]

theorem pairwise_range' (p n o : ℕ) : (List.range' p n o).Pairwise fun a b ↦ Apart a o b o := by
  induction n generalizing p with
  | zero => exact .nil
  | succ n ih =>
    rw [List.range'_succ, List.pairwise_cons]
    refine ⟨?_, ih _⟩
    intro b hb
    obtain ⟨i, -, rfl⟩ := List.mem_range'.mp hb
    left
    omega

theorem range'_bounds {b : ℕ} (hb : b ∈ List.range' p n o) : p ≤ b ∧ b + o ≤ p + n * o := by
  obtain ⟨i, hi, rfl⟩ := List.mem_range'.mp hb
  refine ⟨Nat.le_add_right _ _, ?_⟩
  have hle : (i + 1) * o ≤ n * o := Nat.mul_le_mul_right o hi
  rw [Nat.succ_mul, Nat.mul_comm] at hle
  omega

theorem carve_of_notMem (ho : sizeofMemBlockNode ≤ o) (h : p + n * o ≤ sizeTValues)
    (hx : x < p ∨ p + n * o ≤ x) : (MemPool.carve o n m head p).1 x = m x := by
  induction n generalizing m head p with
  | zero => rfl
  | succ n ih =>
    rw [Nat.succ_mul] at h hx
    have hkept : MemPool.setNext m p head x = m x := by
      apply store_of_notMem
      omega
    rw [MemPool.carve]
    cases n with
    | zero => exact hkept
    | succ n =>
      have hpos : 0 < sizeofMemBlockNode := by decide
      have hlt : p + o < sizeTValues := by
        rw [Nat.succ_mul] at h
        omega
      rw [Nat.mod_eq_of_lt hlt, ih (by omega) (by omega), hkept]

theorem threaded_carve (hl : Threaded sizeofMemBlockNode m head l) (ho : sizeofMemBlockNode ≤ o)
    (h : p + n * o ≤ sizeTValues) (hp : p ≠ 0) (hhead : head < sizeTValues)
    (hapart : ∀ b ∈ l, Apart b sizeofMemBlockNode p (n * o)) :
    Threaded sizeofMemBlockNode (MemPool.carve o n m head p).1 (MemPool.carve o n m head p).2
      ((List.range' p n o).reverse ++ l) := by
  induction n generalizing m head p l with
  | zero => exact hl
  | succ n ih =>
    have hpos : 0 < sizeofMemBlockNode := by decide
    rw [Nat.succ_mul] at h hapart
    -- the node that is threaded now keeps off those already on the list
    have hpush : Threaded sizeofMemBlockNode (MemPool.setNext m p head) p (p :: l) := by
      apply hl.push hp hhead
      intro b hb
      have hb' := hapart b hb
      unfold Apart at hb' ⊢
      omega
    rw [MemPool.carve, List.range'_succ, List.reverse_cons, List.append_assoc]
    -- the address after the last node may wrap, but is not used
    cases n with
    | zero => exact hpush
    | succ n =>
      have hlt : p + o < sizeTValues := by
        rw [Nat.succ_mul] at h
        omega
      rw [Nat.mod_eq_of_lt hlt]
      apply ih hpush
      · omega
      · omega
      · omega
      · intro b hb
        rcases List.mem_cons.mp hb with rfl | hb
        · left
          omega
        · have hb' := hapart b hb
          unfold Apart at hb' ⊢
          omega

end Stride

/-! ## What holds of a pool at any time -/

/-- A slab of blocks of `o` bytes is large enough for them. -/
structure SlabOk (o : ℕ) (w : Slab) : Prop where
  /-- It is not null. -/
  base : 0 < w.base
  /-- It has blocks. -/
  cnt : 0 < w.cnt
  /-- It has room for a header and the blocks. -/
  size : w.size = w.cnt * o + sizeofMemBlockNode
  /-- It is memory. -/
  fits : w.base + w.size ≤ sizeTValues

/-- What holds of a pool at any time. -/
structure Sound (s : PoolState) : Prop where
  /-- A block has room for a link. -/
  node : sizeofMemBlockNode ≤ s.pool.objSize_
  /-- The slabs are large enough. -/
  slabOk : ∀ w ∈ s.slabs, SlabOk s.pool.objSize_ w
  /-- The slabs do not overlap. -/
  apart : s.slabs.Pairwise fun w w' ↦ Apart w.base w.size w'.base w'.size
  /-- The list of slabs is threaded through their headers. -/
  headers : Threaded sizeofMemBlockNode s.mem s.pool.mallocListHead (s.slabs.map Slab.base)
  /-- The free list is threaded through the blocks that are not held. -/
  conserved : ∃ l, Threaded sizeofMemBlockNode s.mem s.pool.freeListHead l ∧
    (l ++ s.outstanding).Perm s.blocks

section Invariant

variable {s s' : PoolState} {w w' : Slab} {b b' blk x : ℕ} {v : UInt8}

theorem SlabOk.first_lt {o : ℕ} (hw : SlabOk o w) (hnode : sizeofMemBlockNode ≤ o) :
    w.base + sizeofMemBlockNode < sizeTValues := by
  obtain ⟨-, hcnt, hsize, hfits⟩ := hw
  have hroom : 0 < w.cnt * o := Nat.mul_pos hcnt (lt_of_lt_of_le (by decide) hnode)
  omega

theorem SlabOk.blocksOf_eq (hw : SlabOk s.pool.objSize_ w)
    (hnode : sizeofMemBlockNode ≤ s.pool.objSize_) :
    s.blocksOf w = List.range' (w.base + sizeofMemBlockNode) w.cnt s.pool.objSize_ := by
  have hpos : 0 < s.pool.objSize_ := lt_of_lt_of_le (by decide) hnode
  have hsize := hw.size
  have hfits := hw.fits
  rw [PoolState.blocksOf, Nat.mod_eq_of_lt (hw.first_lt hnode), carved_eq_range' hpos (by omega)]

theorem SlabOk.bounds (hw : SlabOk s.pool.objSize_ w)
    (hnode : sizeofMemBlockNode ≤ s.pool.objSize_) (hb : b ∈ s.blocksOf w) :
    w.base + sizeofMemBlockNode ≤ b ∧ b + s.pool.objSize_ ≤ w.base + w.size := by
  rw [hw.blocksOf_eq hnode] at hb
  have hbounds := range'_bounds hb
  have hsize := hw.size
  omega

namespace Sound

theorem inside (h : Sound s) (hb : b ∈ s.blocks) :
    ∃ w ∈ s.slabs, w.base + sizeofMemBlockNode ≤ b ∧ b + s.pool.objSize_ ≤ w.base + w.size := by
  obtain ⟨w, hw, hbw⟩ := List.mem_flatMap.mp hb
  exact ⟨w, hw, (h.slabOk w hw).bounds h.node hbw⟩

theorem apart_of_ne (h : Sound s) (hw : w ∈ s.slabs) (hw' : w' ∈ s.slabs) (hne : w ≠ w') :
    Apart w.base w.size w'.base w'.size := by
  have hsymm : Std.Symm fun w w' : Slab ↦ Apart w.base w.size w'.base w'.size :=
    ⟨fun _ _ ↦ apart_comm.mp⟩
  exact h.apart.forall hw hw' hne

theorem pairwise_blocks (h : Sound s) :
    s.blocks.Pairwise fun b b' ↦ Apart b s.pool.objSize_ b' s.pool.objSize_ := by
  rw [PoolState.blocks, List.pairwise_flatMap]
  constructor
  · intro w hw
    rw [(h.slabOk w hw).blocksOf_eq h.node]
    exact pairwise_range' _ _ _
  · apply h.apart.imp_of_mem
    intro w w' hw hw' hww b hb b' hb'
    have hbounds := (h.slabOk w hw).bounds h.node hb
    have hbounds' := (h.slabOk w' hw').bounds h.node hb'
    unfold Apart at hww ⊢
    omega

theorem blocks_nodup (h : Sound s) : s.blocks.Nodup := by
  have hpos : 0 < s.pool.objSize_ := lt_of_lt_of_le (by decide) h.node
  apply h.pairwise_blocks.imp
  rintro b b' hapart rfl
  unfold Apart at hapart
  omega

theorem alone (h : Sound s) (hb : b ∈ s.blocks) (hb' : b' ∈ s.blocks) (hne : b ≠ b') :
    Apart b s.pool.objSize_ b' s.pool.objSize_ := by
  have hsymm : Std.Symm fun b b' : ℕ ↦ Apart b s.pool.objSize_ b' s.pool.objSize_ :=
    ⟨fun _ _ ↦ apart_comm.mp⟩
  exact h.pairwise_blocks.forall hb hb' hne

theorem apart_header (h : Sound s) (hb : b ∈ s.blocks) (hw : w ∈ s.slabs) :
    Apart b s.pool.objSize_ w.base sizeofMemBlockNode := by
  obtain ⟨w', hw', hlow, hhigh⟩ := h.inside hb
  by_cases hww : w' = w
  · subst hww
    exact .inr hlow
  · have happart := h.apart_of_ne hw' hw hww
    have hsize := (h.slabOk w hw).size
    unfold Apart at happart ⊢
    omega

theorem nodup_append {l : List ℕ} (h : Sound s) (hperm : (l ++ s.outstanding).Perm s.blocks) :
    (l ++ s.outstanding).Nodup :=
  hperm.nodup_iff.mpr h.blocks_nodup

theorem mem_blocks (h : Sound s) (hb : b ∈ s.outstanding) : b ∈ s.blocks := by
  obtain ⟨l, -, hperm⟩ := h.conserved
  exact hperm.subset (List.mem_append_right l hb)

theorem noneLost (h : Sound s) : NoneLost s := by
  obtain ⟨l, hl, hperm⟩ := h.conserved
  exact ⟨l, hl, (h.nodup_append hperm).of_append_left, hperm, h.blocks_nodup⟩

theorem block_lt (h : Sound s) (hb : b ∈ s.blocks) : b < sizeTValues := by
  obtain ⟨w, hw, -, hhigh⟩ := h.inside hb
  have hfits := (h.slabOk w hw).fits
  have hpos : 0 < s.pool.objSize_ := lt_of_lt_of_le (by decide) h.node
  omega

theorem freeListHead_lt (h : Sound s) : s.pool.freeListHead < sizeTValues := by
  obtain ⟨l, hl, hperm⟩ := h.conserved
  by_cases hnull : s.pool.freeListHead = 0
  · rw [hnull]
    decide
  · exact h.block_lt (hperm.subset (List.mem_append_left _ (hl.head_mem hnull)))

theorem mallocListHead_lt (h : Sound s) : s.pool.mallocListHead < sizeTValues := by
  by_cases hnull : s.pool.mallocListHead = 0
  · rw [hnull]
    decide
  · obtain ⟨w, hw, hbase⟩ := List.mem_map.mp (h.headers.head_mem hnull)
    have hfits := (h.slabOk w hw).fits
    have hsize := (h.slabOk w hw).size
    have hpos : 0 < sizeofMemBlockNode := by decide
    omega

theorem ne_zero (h : Sound s) (hb : b ∈ s.blocks) : b ≠ 0 := by
  obtain ⟨w, hw, hlow, -⟩ := h.inside hb
  have hbase := (h.slabOk w hw).base
  omega

/-! ### Writing -/

/-- The lists depend on the links of free blocks and headers only. -/
theorem of_mem {mem : Mem} (h : Sound s)
    (hfree : ∀ b ∈ s.blocks, b ∉ s.outstanding →
      load mem b sizeofMemBlockNode = load s.mem b sizeofMemBlockNode)
    (hheaders : ∀ w ∈ s.slabs,
      load mem w.base sizeofMemBlockNode = load s.mem w.base sizeofMemBlockNode) :
    Sound { s with mem } := by
  obtain ⟨l, hl, hperm⟩ := h.conserved
  refine ⟨h.node, h.slabOk, h.apart, ?_, l, ?_, hperm⟩
  · apply h.headers.congr
    intro a ha
    obtain ⟨w, hw, rfl⟩ := List.mem_map.mp ha
    exact hheaders w hw
  · apply hl.congr
    intro b hb
    have hdisj := List.disjoint_of_nodup_append (h.nodup_append hperm)
    exact hfree b (hperm.subset (List.mem_append_left _ hb)) fun hout ↦ hdisj hb hout

/-- Clients may write what they like into the blocks they hold. -/
theorem write (h : Sound s) (hx : s.InSlab x → s.InUse x) :
    Sound { s with mem := Function.update s.mem x v } := by
  apply h.of_mem
  · intro b hb hnone
    apply load_update
    by_contra hin
    obtain ⟨w, hw, hlow, hhigh⟩ := h.inside hb
    have hnode := h.node
    obtain ⟨b', hb', hle, hlt⟩ := hx ⟨w, hw, by omega, by omega⟩
    have hne : b ≠ b' := by
      rintro rfl
      exact hnone hb'
    have hapart := h.alone hb (h.mem_blocks hb') hne
    unfold Apart at hapart
    omega
  · intro w hw
    apply load_update
    by_contra hin
    have hsize := (h.slabOk w hw).size
    obtain ⟨b', hb', hle, hlt⟩ := hx ⟨w, hw, by omega, by omega⟩
    have hapart := h.apart_header (h.mem_blocks hb') hw
    unfold Apart at hapart
    omega

/-! ### Freeing -/

theorem free (h : Sound s) (hb : b = 0 ∨ b ∈ s.outstanding) : Sound (s.free b) := by
  rw [PoolState.free, MemPool.freeAMemBlock]
  by_cases hnull : b = 0
  · have hnone : b ∉ s.outstanding := fun hout ↦ h.ne_zero (h.mem_blocks hout) hnull
    rw [if_pos hnull, List.erase_of_not_mem hnone]
    exact h
  · have hout : b ∈ s.outstanding := hb.resolve_left hnull
    have hblock := h.mem_blocks hout
    have hnode := h.node
    obtain ⟨l, hl, hperm⟩ := h.conserved
    rw [if_neg hnull]
    refine ⟨h.node, h.slabOk, h.apart, ?_, b :: l, ?_, ?_⟩
    · apply h.headers.congr
      intro a ha
      obtain ⟨w, hw, rfl⟩ := List.mem_map.mp ha
      apply load_store_of_apart
      have hapart := h.apart_header hblock hw
      unfold Apart at hapart ⊢
      omega
    · apply hl.push hnull h.freeListHead_lt
      intro b' hb'
      have hdisj := List.disjoint_of_nodup_append (h.nodup_append hperm)
      have hne : b ≠ b' := by
        rintro rfl
        exact hdisj hb' hout
      have hapart := h.alone hblock (hperm.subset (List.mem_append_left _ hb')) hne
      unfold Apart at hapart ⊢
      omega
    · have hmove : (b :: l ++ s.outstanding.erase b).Perm (l ++ s.outstanding) :=
        List.perm_middle.symm.trans ((List.perm_cons_erase hout).symm.append_left l)
      exact hmove.trans hperm

/-! ### Allocating -/

theorem take (h : Sound s) (hne : s.pool.freeListHead ≠ 0) :
    Sound ⟨s.pool.take s.mem, s.mem, s.slabs, s.pool.freeListHead :: s.outstanding⟩ := by
  obtain ⟨l, hl, hperm⟩ := h.conserved
  obtain ⟨l', rfl, hrest⟩ := hl.pop hne
  exact ⟨h.node, h.slabOk, h.apart, h.headers, l', hrest, List.perm_middle.trans hperm⟩

theorem handedOut (h : Sound s) (hne : s.pool.freeListHead ≠ 0) (hslabs : s'.slabs = s.slabs) :
    HandedOut s s' s.pool.freeListHead := by
  obtain ⟨l, hl, hperm⟩ := h.conserved
  have hfree := hl.head_mem hne
  have hblock : s.pool.freeListHead ∈ s.blocks := hperm.subset (List.mem_append_left _ hfree)
  have hnone : s.pool.freeListHead ∉ s.outstanding :=
    List.disjoint_of_nodup_append (h.nodup_append hperm) hfree
  refine ⟨hnone, ?_, ?_, ?_⟩
  · rw [hslabs]
    exact h.inside hblock
  · intro b hb
    apply h.alone hblock (h.mem_blocks hb)
    rintro rfl
    exact hnone hb
  · rw [hslabs]
    intro w hw
    exact h.apart_header hblock hw

end Sound

/-- The state in which the pool has got a new slab. -/
def PoolState.grown (s : PoolState) (blk : ℕ) : PoolState :=
  ⟨(s.pool.grow s.mem blk).1, (s.pool.grow s.mem blk).2,
    ⟨blk, s.pool.mallocSize, s.pool.mallocCnt⟩ :: s.slabs, s.outstanding⟩

theorem PoolState.Fits.mallocCnt_eq (hfits : s.Fits (.alloc blk)) (hnull : s.pool.freeListHead = 0)
    (hnode : sizeofMemBlockNode ≤ s.pool.objSize_) :
    s.pool.mallocCnt = memPoolMallocObjCnt + s.pool.mallocTimes := by
  have hlt := hfits hnull
  have hpos : 0 < s.pool.objSize_ := lt_of_lt_of_le (by decide) hnode
  have hle : memPoolMallocObjCnt + s.pool.mallocTimes ≤
      (memPoolMallocObjCnt + s.pool.mallocTimes) * s.pool.objSize_ := Nat.le_mul_of_pos_right _ hpos
  exact Nat.mod_eq_of_lt (by omega)

theorem PoolState.Fits.slabOk (hfits : s.Fits (.alloc blk)) (hnull : s.pool.freeListHead = 0)
    (hfresh : s.MallocFresh blk) (hnode : sizeofMemBlockNode ≤ s.pool.objSize_) :
    SlabOk s.pool.objSize_ ⟨blk, s.pool.mallocSize, s.pool.mallocCnt⟩ := by
  have hcnt := hfits.mallocCnt_eq hnull hnode
  have hforty : 0 < memPoolMallocObjCnt := by decide
  refine ⟨Nat.pos_of_ne_zero hfresh.1, ?_, ?_, hfresh.2.1⟩
  · show 0 < s.pool.mallocCnt
    omega
  · show s.pool.mallocSize = s.pool.mallocCnt * s.pool.objSize_ + sizeofMemBlockNode
    rw [MemPool.mallocSize, hcnt, Nat.mod_eq_of_lt (hfits hnull)]

section Grown

variable (hslab : SlabOk s.pool.objSize_ ⟨blk, s.pool.mallocSize, s.pool.mallocCnt⟩)
include hslab

theorem PoolState.blocks_grown (hnode : sizeofMemBlockNode ≤ s.pool.objSize_) :
    (s.grown blk).blocks =
      List.range' (blk + sizeofMemBlockNode) s.pool.mallocCnt s.pool.objSize_ ++ s.blocks := by
  rw [PoolState.blocks, PoolState.grown, List.flatMap_cons]
  exact congrArg (· ++ s.blocks) (SlabOk.blocksOf_eq (s := s.grown blk) hslab hnode)

/-- The loop over the new slab starts after its header, with an empty free list. -/
theorem PoolState.carve_grown (hnode : sizeofMemBlockNode ≤ s.pool.objSize_)
    (hnull : s.pool.freeListHead = 0) :
    MemPool.carve s.pool.objSize_ s.pool.mallocCnt
        (MemPool.setNext s.mem blk s.pool.mallocListHead) 0 (blk + sizeofMemBlockNode) =
      ((s.grown blk).mem, (s.grown blk).pool.freeListHead) := by
  have hstart : (blk + sizeofMemBlockNode) % sizeTValues = blk + sizeofMemBlockNode :=
    Nat.mod_eq_of_lt (hslab.first_lt hnode)
  rw [PoolState.grown, MemPool.grow, hstart, hnull]

theorem PoolState.threaded_grown (hnode : sizeofMemBlockNode ≤ s.pool.objSize_)
    (hnull : s.pool.freeListHead = 0) :
    Threaded sizeofMemBlockNode (s.grown blk).mem (s.grown blk).pool.freeListHead
      (List.range' (blk + sizeofMemBlockNode) s.pool.mallocCnt s.pool.objSize_).reverse := by
  have hbase := hslab.base
  have hsize := hslab.size
  have hend := hslab.fits
  simp only at hbase hsize hend
  have hfree := threaded_carve (m := MemPool.setNext s.mem blk s.pool.mallocListHead)
    (p := blk + sizeofMemBlockNode) (n := s.pool.mallocCnt) (threaded_nil (w := sizeofMemBlockNode))
    hnode (by omega) (by omega) (by decide) fun b hb ↦ absurd hb List.not_mem_nil
  rw [PoolState.carve_grown hslab hnode hnull, List.append_nil] at hfree
  exact hfree

theorem Sound.headers_grown (h : Sound s) (hnull : s.pool.freeListHead = 0) (hne : blk ≠ 0)
    (hnew : ∀ w ∈ s.slabs, Apart blk s.pool.mallocSize w.base w.size) :
    Threaded sizeofMemBlockNode (s.grown blk).mem (s.grown blk).pool.mallocListHead
      ((s.grown blk).slabs.map Slab.base) := by
  have hsize := hslab.size
  have hend := hslab.fits
  simp only at hsize hend
  have hpush : Threaded sizeofMemBlockNode (MemPool.setNext s.mem blk s.pool.mallocListHead) blk
      (blk :: s.slabs.map Slab.base) := by
    apply h.headers.push hne h.mallocListHead_lt
    intro a ha
    obtain ⟨w, hw, rfl⟩ := List.mem_map.mp ha
    have hapart := hnew w hw
    have hsize' := (h.slabOk w hw).size
    unfold Apart at hapart ⊢
    omega
  have hmem : _ = (s.grown blk).mem :=
    congrArg Prod.fst (PoolState.carve_grown hslab h.node hnull)
  apply hpush.congr
  intro a ha
  rw [← hmem]
  apply load_congr
  intro x hle hlt
  apply carve_of_notMem h.node (by omega)
  rcases List.mem_cons.mp ha with rfl | ha
  · omega
  · obtain ⟨w, hw, rfl⟩ := List.mem_map.mp ha
    have hapart := hnew w hw
    have hsize' := (h.slabOk w hw).size
    unfold Apart at hapart
    omega

end Grown

theorem Sound.grown (h : Sound s) (hnull : s.pool.freeListHead = 0) (hfresh : s.MallocFresh blk)
    (hfits : s.Fits (.alloc blk)) :
    Sound (s.grown blk) ∧ (s.grown blk).pool.freeListHead ≠ 0 := by
  have hslab := hfits.slabOk hnull hfresh h.node
  obtain ⟨hne, -, hnew⟩ := hfresh
  have hfree := PoolState.threaded_grown hslab h.node hnull
  have hheaders := h.headers_grown hslab hnull hne hnew
  refine ⟨⟨h.node, ?_, ?_, hheaders, _, hfree, ?_⟩, ?_⟩
  · intro w hw
    rcases List.mem_cons.mp hw with rfl | hw
    · exact hslab
    · exact h.slabOk w hw
  · exact List.pairwise_cons.mpr ⟨hnew, h.apart⟩
  · -- the free list was empty, so what was carved before is held
    obtain ⟨l, hl, hperm⟩ := h.conserved
    rw [hnull] at hl
    obtain rfl := hl.eq_nil
    rw [PoolState.blocks_grown hslab h.node]
    exact (List.reverse_perm _).append hperm
  · have hcnt := hslab.cnt
    simp only at hcnt
    apply hfree.head_ne
    rw [ne_eq, List.reverse_eq_nil_iff, List.range'_eq_nil_iff]
    omega

/-- An allocation hands out the first free block, of a new slab if there is none. -/
theorem Sound.alloc (h : Sound s) (hfresh : s.pool.freeListHead = 0 → s.MallocFresh blk)
    (hfits : s.Fits (.alloc blk)) :
    Sound (s.alloc blk).1 ∧ ∃ ret, (s.alloc blk).2 = [.allocated ret] ∧
      HandedOut s (s.alloc blk).1 ret := by
  rw [PoolState.alloc, MemPool.allocAMemBlock, PoolState.slabsAfter]
  by_cases hnull : s.pool.freeListHead = 0
  · rw [if_pos hnull, if_pos hnull]
    obtain ⟨hgrown, hne⟩ := h.grown hnull (hfresh hnull) hfits
    obtain ⟨hfree, hinside, halone, hheaders⟩ :=
      hgrown.handedOut hne (rfl : (s.grown blk).slabs = _)
    exact ⟨hgrown.take hne, _, rfl, hfree, hinside, halone, hheaders⟩
  · rw [if_neg hnull, if_neg hnull]
    exact ⟨h.take hnull, _, rfl, h.handedOut hnull rfl⟩

end Invariant

/-! ## Whole runs -/

section Runs

variable {s₀ s s' : PoolState} {act : PoolAct} {es : List PoolEvent}
  {tr : List (PoolAct × List PoolEvent)}

/-- The runs in which clients keep to their rules and the sizes of slabs do not wrap. -/
def PoolState.Guard (s : PoolState) (act : PoolAct) : Prop := s.Disciplined act ∧ s.Fits act

instance (s : PoolState) (act : PoolAct) : Decidable (s.Guard act) :=
  inferInstanceAs (Decidable (s.Disciplined act ∧ s.Fits act))

theorem sound_init (h₀ : PoolState.machine.init s₀) : Sound s₀ := by
  obtain ⟨objSize, -, mem, rfl⟩ := h₀
  refine ⟨?_, ?_, .nil, threaded_nil, [], threaded_nil, .nil⟩
  · show sizeofMemBlockNode ≤ if objSize < sizeofMemBlockNode then sizeofMemBlockNode else objSize
    split <;> omega
  · intro w hw
    exact absurd hw List.not_mem_nil

theorem Sound.step (h : Sound s) (hguard : s.Guard act) (hs : s.step act = some (s', es)) :
    Sound s' := by
  obtain ⟨hrules, hfits⟩ := hguard
  cases PoolState.Step.of_step hs with
  | alloc blk hfresh => exact (h.alloc hfresh hfits).1
  | free block => exact h.free hrules
  | write x v => exact h.write hrules

theorem sound_run (h₀ : PoolState.machine.init s₀)
    (h : Run PoolState.machine PoolState.Guard s₀ tr s) : Sound s :=
  h.invariant (sound_init h₀) fun hP hguard hs ↦ hP.step hguard hs

/-- **Blocks are disjoint and none is lost.** In every run in which clients free what they hold and
write to what they hold, and in which the sizes of slabs do not wrap: the free list is finite and
without repetition, the free blocks together with those held are the blocks carved from all slabs,
each once, and a block that is handed out was not held, lies in a slab after its header, and
overlaps neither another block that is held nor a header. -/
theorem memPool_blocks (h₀ : PoolState.machine.init s₀)
    (h : Run PoolState.machine PoolState.Guard s₀ tr s) :
    NoneLost s ∧ ∀ blk s' es, s.Guard (.alloc blk) → s.step (.alloc blk) = some (s', es) →
      ∃ ret, es = [.allocated ret] ∧ HandedOut s s' ret := by
  have hsound := sound_run h₀ h
  refine ⟨hsound.noneLost, ?_⟩
  intro blk s' es hguard hs
  cases PoolState.Step.of_step hs with
  | alloc blk hfresh => exact (hsound.alloc hfresh hguard.2).2

/-- Two blocks of twelve bytes are taken; one is written to its last byte, freed and taken again. -/
def takenTwice : List PoolAct :=
  [.alloc 64, .alloc 0, .write 551 255, .free 540, .alloc 0]

theorem memPool_blocks_taken_twice :
    ∃ tr s, Run PoolState.machine PoolState.Guard (.start 12 fun _ ↦ 0) tr s ∧
      s.outstanding = [540, 528] ∧ NoneLost s ∧
      ∀ blk s' es, s.Guard (.alloc blk) → s.step (.alloc blk) = some (s', es) →
        ∃ ret, es = [.allocated ret] ∧ HandedOut s s' ret := by
  have h := run_after (M := PoolState.machine) (C := PoolState.Guard)
    (s := .start 12 fun _ ↦ 0) takenTwice
  exact ⟨_, _, h, by decide +kernel, memPool_blocks ⟨12, by decide, _, rfl⟩ h⟩

/-- A pool of blocks of 2 ^ 62 bytes. -/
def hugeBlocks : PoolState := .start (2 ^ 62) fun _ ↦ 0

/-- The size of the slab wraps to that of a header, and the block that is handed out is nowhere near
it. -/
theorem memPool_blocks_fails_wrapped :
    ¬ ∀ (s₀ s : PoolState) (tr : List (PoolAct × List PoolEvent)), PoolState.machine.init s₀ →
      Run PoolState.machine PoolState.Disciplined s₀ tr s →
      NoneLost s ∧ ∀ blk s' es, s.Disciplined (.alloc blk) → s.step (.alloc blk) = some (s', es) →
        ∃ ret, es = [.allocated ret] ∧ HandedOut s s' ret := by
  intro h
  have hstart : PoolState.machine.init hugeBlocks := ⟨2 ^ 62, by decide, _, rfl⟩
  have hfresh : hugeBlocks.MallocFresh 64 := by decide +kernel
  have hstep : hugeBlocks.step (.alloc 64) =
      some ((hugeBlocks.alloc 64).1, (hugeBlocks.alloc 64).2) := by
    rw [PoolState.step, if_pos fun _ ↦ hfresh]
  obtain ⟨ret, hret, hout⟩ := (h _ _ [] hstart .nil).2 64 _ _ trivial hstep
  -- the loop goes around the address space, and ends far above the slab
  have hevents : (hugeBlocks.alloc 64).2 = [.allocated (72 + 3 * 2 ^ 62)] := by decide +kernel
  have hslabs : (hugeBlocks.alloc 64).1.slabs = [⟨64, 8, 40⟩] := by decide +kernel
  rw [hevents, List.cons.injEq, PoolEvent.allocated.injEq] at hret
  obtain ⟨w, hw, -, hhigh⟩ := hout.inside
  rw [hslabs, List.mem_singleton] at hw
  subst hw
  rw [← hret.1] at hhigh
  exact absurd hhigh (by decide +kernel)

end Runs

end Copnet
