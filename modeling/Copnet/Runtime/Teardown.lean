import Copnet.Runtime.NoStale
import Mathlib.Data.Finset.Sort

/-!
# The end of a processor

A coroutine is built in a block of `coPool_`. While the loop runs it comes to an end in one way:
`delete_obj` runs its destructor and gives the block back to the pool. When the processor itself is
destroyed, after the loop has ended at the test of its `while`, the coroutines of `coSet_` go
through `delete`, which passes their blocks to the global `operator delete`; nobody looks at the
queues, so that a coroutine that has not been started yet is not destructed at all; and then the
slabs of `coPool_` are released.

So the memory of all coroutines goes back where it came from exactly if there is nothing left to be
done: every function has returned, and the loop has reclaimed what it was executed on.
-/

open Transition Ledger

namespace Copnet

/-! ## `~Processor` -/

/-- What `~Processor` does to coroutines and their memory. -/
inductive DestroyEvent
  /-- The destructor of coroutine number `serial` has run at `a`. -/
  | destruct (a : Addr) (serial : ℕ)
  /-- The block at `a` has been passed to the global `operator delete`. -/
  | operatorDelete (a : Addr)
  /-- The slabs of the pool of `p` have been released. -/
  | releaseSlabs (p : Pid)
deriving DecidableEq

namespace Sys

def deleteCo (s : Sys) (co : Addr) : Option (Sys × List DestroyEvent) :=
  (s.cos co).map fun c ↦ (s.setCo co none, [.destruct co c.serial, .operatorDelete co])

/-- The loop of `~Processor`, with `coSet` yet to come. -/
def deleteCos : List Addr → Sys → Option (Sys × List DestroyEvent)
  | [], s => some (s, [])
  | co :: coSet, s =>
    (s.deleteCo co).bind fun r ↦ (deleteCos coSet r.1).map fun r' ↦ (r'.1, r.2 ++ r'.2)

/-- `~Processor` after `join`, with the destructor of `coPool_` at the end of it. A `std::set` of
pointers is in the order of the addresses. -/
def destroyPro (s : Sys) (p : Pid) : Option (Sys × List DestroyEvent) :=
  (deleteCos ((s.pros p).coSet.sort (· ≤ ·)) s).map fun r ↦ (r.1, r.2 ++ [.releaseSlabs p])

end Sys

/-! ## Where the memory goes -/

/-- `delete_obj` has destructed coroutine number `n`. -/
def Event.deletes (n : ℕ) : Event → Bool
  | .delete _ _ m => m = n
  | _ => false

/-- `delete` has destructed coroutine number `n`. -/
def DestroyEvent.destructs (n : ℕ) : DestroyEvent → Bool
  | .destruct _ m => m = n
  | _ => false

/-- How many times coroutine number `n` is destructed, in a run and in the teardown after it. -/
def destructions (n : ℕ) (evs : List Event) (ends : List DestroyEvent) : ℕ :=
  evs.countP (Event.deletes n) + ends.countP (DestroyEvent.destructs n)

/-- Every coroutine built for `p` is destructed once, and its block is not passed to
`operator delete` but goes back to the pool of `p`, or goes with the slabs. -/
def GoesBack (p : Pid) (evs : List Event) (ends : List DestroyEvent) : Prop :=
  ∀ a n, .made a n p ∈ evs →
    destructions n evs ends = 1 ∧
    .operatorDelete a ∉ ends ∧
    (∀ q b, .delete q b n ∈ evs → q = p ∧ b = a) ∧
    (.delete p a n ∈ evs ∨ .releaseSlabs p ∈ ends)

/-! ## The teardown -/

theorem Sys.deleteCos_eq {coSet : List Addr} (hnodup : coSet.Nodup) {f : Addr → Coroutine}
    {s : Sys} (hco : ∀ a ∈ coSet, s.cos a = some (f a)) :
    ∃ u, Sys.deleteCos coSet s =
      some (u, coSet.flatMap fun a ↦ [.destruct a (f a).serial, .operatorDelete a]) := by
  induction coSet generalizing s with
  | nil => exact ⟨s, rfl⟩
  | cons a coSet ih =>
    obtain ⟨hnot, hnodup⟩ := List.nodup_cons.mp hnodup
    have hrest : ∀ b ∈ coSet, (s.setCo a none).cos b = some (f b) := by
      intro b hb
      have hne : b ≠ a := by
        rintro rfl
        exact hnot hb
      rw [s.cos_setCo, if_neg hne]
      exact hco b (List.mem_cons_of_mem _ hb)
    obtain ⟨u, hu⟩ := ih hnodup hrest
    refine ⟨u, ?_⟩
    rw [Sys.deleteCos, Sys.deleteCo, hco a (List.mem_cons_self ..)]
    simp [hu]

/-- What `~Processor` does to whom. -/
structure Destroys (s : Sys) (p : Pid) (ends : List DestroyEvent) : Prop where
  destruct : ∀ a n, .destruct a n ∈ ends ↔
    a ∈ (s.pros p).coSet ∧ ∃ c, s.cos a = some c ∧ c.serial = n
  operatorDelete : ∀ a, .operatorDelete a ∈ ends ↔ a ∈ (s.pros p).coSet
  releaseSlabs : .releaseSlabs p ∈ ends

theorem Destroys.countP_destructs {s : Sys} {p : Pid} {ends : List DestroyEvent}
    (h : Destroys s p ends) {n : ℕ}
    (hset : ∀ b ∈ (s.pros p).coSet, ∀ c, s.cos b = some c → c.serial ≠ n) :
    ends.countP (DestroyEvent.destructs n) = 0 := by
  rw [List.countP_eq_zero]
  rintro (⟨b, m⟩ | b | q) hmem hn
  · obtain rfl : m = n := by simpa [DestroyEvent.destructs] using hn
    obtain ⟨hb, c, hc, hserial⟩ := (h.destruct b m).mp hmem
    exact hset b hb c hc hserial
  · simp [DestroyEvent.destructs] at hn
  · simp [DestroyEvent.destructs] at hn

/-- `~Processor` follows no dangling pointer. -/
theorem Lives.destroys {s : Sys} {L : Addr → Life} (hL : Lives s L) (p : Pid) :
    ∃ r, s.destroyPro p = some r ∧ Destroys s p r.2 := by
  have hobj : ∀ a, ∃ c, a ∈ (s.pros p).coSet → s.cos a = some c := by
    intro a
    by_cases ha : a ∈ (s.pros p).coSet
    · obtain ⟨c, hc, -⟩ := hL.of_coSet ha
      exact ⟨c, fun _ ↦ hc⟩
    · exact ⟨⟨p, .ready, (a, .user), 0⟩, fun h ↦ absurd h ha⟩
  choose f hf using hobj
  have hmem : ∀ a ∈ (s.pros p).coSet.sort (· ≤ ·), s.cos a = some (f a) :=
    fun a ha ↦ hf a ((Finset.mem_sort _).mp ha)
  obtain ⟨u, hu⟩ := Sys.deleteCos_eq (Finset.sort_nodup ..) hmem
  refine ⟨_, by rw [Sys.destroyPro, hu]; rfl, ⟨fun a n ↦ ?_, fun a ↦ ?_, ?_⟩⟩
  · simp only [List.mem_append, List.mem_flatMap, Finset.mem_sort, List.mem_cons,
      DestroyEvent.destruct.injEq, reduceCtorEq, List.not_mem_nil, or_false]
    constructor
    · rintro ⟨b, hb, rfl, rfl⟩
      exact ⟨hb, f a, hf a hb, rfl⟩
    · rintro ⟨ha, c, hc, rfl⟩
      obtain rfl := Option.some.inj ((hf a ha).symm.trans hc)
      exact ⟨a, ha, rfl, rfl⟩
  · simp
  · simp

/-! ## From the histories -/

section Histories

variable {s : Sys} {evs : List Event} {N n : ℕ} {L : Addr → Life} {p : Pid} {a : Addr}

theorem countP_deletes (n : ℕ) (evs : List Event) :
    evs.countP (Event.deletes n) = (history n evs).countP (Event.deletes n) := by
  rw [history, List.countP_filter]
  apply List.countP_congr
  intro ev _
  cases ev <;> simp [Event.deletes, Event.serial?]

theorem Recorded.of_co (h : Recorded evs N L) {c : Coroutine} (hc : (L a).co = some c) :
    .made a c.serial c.pMyProcessor ∈ evs ∧ evs.countP (Event.deletes c.serial) = 0 := by
  obtain ⟨-, hhist⟩ := h.here a c hc
  have hmade : .made a c.serial c.pMyProcessor ∈ history c.serial evs ∧
      (history c.serial evs).countP (Event.deletes c.serial) = 0 := by
    rw [hhist]
    cases hlife : L a <;> simp_all [Life.co, Life.age, lifetime, Event.deletes]
  exact ⟨(mem_history.mp hmade.1).1, (countP_deletes ..).trans hmade.2⟩

theorem Recorded.of_made (h : Recorded evs N L) (hmade : .made a n p ∈ evs)
    (hgone : ∀ c, (L a).co = some c → c.pMyProcessor ≠ p) : history n evs = lifetime a n p := by
  have hmem : .made a n p ∈ history n evs := mem_history.mpr ⟨hmade, rfl⟩
  rcases h.gone n (h.lt_of_mem hmem) with ⟨b, c, hc, rfl⟩ | ⟨b, q, hfull⟩
  · obtain ⟨-, hhist⟩ := h.here b c hc
    rw [hhist] at hmem
    have hfirst := List.mem_of_mem_take hmem
    simp only [lifetime, List.mem_cons, Event.made.injEq, reduceCtorEq, List.not_mem_nil, or_false,
      true_and] at hfirst
    obtain ⟨rfl, rfl⟩ := hfirst
    exact absurd rfl (hgone c hc)
  · rw [hfull] at hmem ⊢
    simp only [lifetime, List.mem_cons, Event.made.injEq, reduceCtorEq, List.not_mem_nil, or_false,
      true_and] at hmem
    obtain ⟨rfl, rfl⟩ := hmem
    rfl

/-- At the top of the loop every function has returned exactly if no coroutine is there. -/
theorem Recorded.finished_iff (h : Recorded evs N L) (hL : Lives s L) (hswept : (s.pros p).Swept)
    (hpc : (s.pros p).pc = .top) :
    (∀ a n, .made a n p ∈ evs → .ret p a n ∈ evs) ↔
      ∀ a c, (L a).co = some c → c.pMyProcessor ≠ p := by
  constructor
  · rintro hret a c hc rfl
    obtain ⟨hmade, hzero⟩ := h.of_co hc
    have hdelete := h.reclaimed hL hswept hpc (hret a c.serial hmade)
    have hmem : .delete c.pMyProcessor a c.serial ∈ evs := List.count_pos_iff.mp (by omega)
    simpa [Event.deletes] using List.countP_eq_zero.mp hzero _ hmem
  · intro hgone a n hmade
    have hmem : .ret p a n ∈ history n evs := by
      rw [h.of_made hmade (hgone a)]
      simp [lifetime]
    exact (mem_history.mp hmem).1

theorem Recorded.not_destructed (h : Recorded evs N L) (hL : Lives s L) {ends : List DestroyEvent}
    (hends : Destroys s p ends) {c : Coroutine} (hc : (L a).co = some c)
    (hset : a ∉ (s.pros p).coSet) : ends.countP (DestroyEvent.destructs c.serial) = 0 := by
  apply hends.countP_destructs
  rintro b hb d hd hserial
  obtain rfl := h.addr_eq ((hL.fits b).co.symm.trans hd) hc hserial
  exact hset hb

theorem Lives.coSet_eq_empty (hL : Lives s L)
    (hgone : ∀ a c, (L a).co = some c → c.pMyProcessor ≠ p) : (s.pros p).coSet = ∅ := by
  apply Finset.eq_empty_of_forall_notMem
  intro b hb
  obtain ⟨c, hc, hp⟩ := hL.of_coSet hb
  exact hgone b c ((hL.fits b).co.symm.trans hc) hp

theorem goesBack_of_history {ends : List DestroyEvent} (hends : Destroys s p ends)
    (hset : (s.pros p).coSet = ∅) (hfull : history n evs = lifetime a n p) :
    destructions n evs ends = 1 ∧ .operatorDelete a ∉ ends ∧
      (∀ q b, .delete q b n ∈ evs → q = p ∧ b = a) ∧
      (.delete p a n ∈ evs ∨ .releaseSlabs p ∈ ends) := by
  have hdelete : ∀ q b, .delete q b n ∈ evs → q = p ∧ b = a := by
    intro q b hmem
    have hhist : .delete q b n ∈ history n evs := mem_history.mpr ⟨hmem, rfl⟩
    rw [hfull] at hhist
    simpa [lifetime] using hhist
  have hnone : ends.countP (DestroyEvent.destructs n) = 0 :=
    hends.countP_destructs fun b hb ↦ by simp [hset] at hb
  refine ⟨?_, fun hmem ↦ ?_, hdelete, .inr hends.releaseSlabs⟩
  · rw [destructions, countP_deletes, hfull, hnone]
    simp [lifetime, Event.deletes]
  · have ha := (hends.operatorDelete a).mp hmem
    simp [hset] at ha

end Histories

/-- **When the memory of coroutines goes back to their pool.** Whatever run comes before it, with
the loop at the test of its `while` in the end, `~Processor` follows no dangling pointer. Every
coroutine built for the processor is then destructed once, its block never passed to
`operator delete`, exactly if the function of every one of them has returned; a coroutine left in
`coSet_`, in a queue or with the caller of `goNewCo` breaks this. -/
theorem goesBack_iff {s₀ s : Sys} {tr : List (Action × List Event)} {p : Pid}
    (hinit : machine.init s₀) (h : Run machine Disciplined s₀ tr s)
    (hpc : (s.pros p).pc = .top) :
    ∃ r, s.destroyPro p = some r ∧ (GoesBack p (events tr) r.2 ↔
      ∀ a n, .made a n p ∈ events tr → .ret p a n ∈ events tr) := by
  obtain ⟨L, hL, hrec⟩ := recorded_run hinit h
  obtain ⟨r, hr, hends⟩ := hL.destroys p
  have hswept := swept_of_reachable ⟨s₀, tr, hinit, h⟩ p
  refine ⟨r, hr, ?_⟩
  rw [hrec.finished_iff hL hswept hpc]
  constructor
  · rintro hback a c hc rfl
    obtain ⟨hmade, hzero⟩ := hrec.of_co hc
    obtain ⟨hone, hblock, -⟩ := hback a c.serial hmade
    have hset : a ∉ (s.pros c.pMyProcessor).coSet := fun ha ↦
      hblock ((hends.operatorDelete a).mpr ha)
    -- neither delete_obj nor delete has got to it
    have hnone := hrec.not_destructed hL hends hc hset
    rw [destructions, hzero, hnone] at hone
    omega
  · intro hgone a n hmade
    exact goesBack_of_history hends (hL.coSet_eq_empty hgone) (hrec.of_made hmade (hgone a))

theorem goesBack_returned : ∃ s tr r, Run machine Disciplined (Sys.fresh 0) tr s ∧
    .made 7 0 0 ∈ events tr ∧ s.destroyPro 0 = some r ∧ GoesBack 0 (events tr) r.2 := by
  let e := machine.after Disciplined (Sys.fresh 0) (toUser ++ thenReturn)
  have h : Run machine Disciplined (Sys.fresh 0) e.2 e.1 := run_after _
  obtain ⟨r, hr, hback⟩ := goesBack_iff ⟨0, rfl⟩ h (p := 0) (by decide)
  have hmade : (events e.2).filter (fun ev ↦ ev matches .made ..) = [.made 7 0 0] := by decide
  refine ⟨_, _, r, h, by decide, hr, hback.mpr fun a n hmem ↦ ?_⟩
  have hmem' : .made a n 0 ∈ (events e.2).filter (fun ev ↦ ev matches .made ..) :=
    List.mem_filter.mpr ⟨hmem, rfl⟩
  rw [hmade, List.mem_singleton] at hmem'
  cases hmem'
  decide

/-- The coroutine at `7` goes to sleep, the loop gets back to the top, and another one is queued. -/
def thenUnfinished : List Action :=
  [.user 0 (.sleep 5), .co 0, .co 0, .co 0] ++ List.replicate 4 (.loop 0) ++
    [.extCall 0 (.goNewCo 0 8), .ext 0, .ext 0]

/-- The block of the first coroutine goes to `operator delete`, and the second is not destructed. -/
theorem goesBack_fails_unfinished : ∃ s tr r, Run machine Disciplined (Sys.fresh 0) tr s ∧
    (s.pros 0).pc = .top ∧ .made 7 0 0 ∈ events tr ∧ .made 8 1 0 ∈ events tr ∧
    s.destroyPro 0 = some r ∧ r.2 = [.destruct 7 0, .operatorDelete 7, .releaseSlabs 0] ∧
    destructions 1 (events tr) r.2 = 0 ∧ ¬GoesBack 0 (events tr) r.2 := by
  let e := machine.after Disciplined (Sys.fresh 0) (toUser ++ thenUnfinished)
  have h : Run machine Disciplined (Sys.fresh 0) e.2 e.1 := run_after _
  have hset : (e.1.pros 0).coSet = {7} := by decide
  have hmade : .made 7 0 0 ∈ events e.2 := by decide
  refine ⟨e.1, e.2, (e.1.setCo 7 none, [.destruct 7 0, .operatorDelete 7, .releaseSlabs 0]), h,
    by decide, hmade, by decide, ?_, rfl, by decide, fun hback ↦ ?_⟩
  · rw [Sys.destroyPro, hset, Finset.sort_singleton]
    rfl
  · exact (hback 7 0 hmade).2.1 (by simp)

end Copnet
