import Copnet.Socket.Accept
import Copnet.Socket.Ownership

/-!
# Counters that are never freed

The destructor frees the counter only where it closes the descriptor, so the counter of a family
with a negative descriptor outlives its last object. `Socket::accept` founds such a family on every
failed attempt.

`Accounted` follows the counters through any run: each is freed as often as it has been allocated,
but for those that still are, and a counter that is allocated without a living object belongs to a
family founded on a negative descriptor. Such a counter is never given out again, which is what
makes the converse true as well.
-/

open Retry Transition

namespace Copnet

/-- A family was founded on the descriptor `fd`, with its counter at `p`. -/
def Founded (tr : List (HandleAct × List HandleEvent)) (fd : ℤ) (p : RefPtr) : Prop :=
  ∃ st ∈ tr, st.1.founds? = some (fd, p)

/-- No counter is leaked: each has been freed once for every family that had it and has come to an
end, and as many are allocated as there are families with a living object. -/
structure NoLeak (tr : List (HandleAct × List HandleEvent)) (s : Sockets) : Prop where
  /-- A counter has been freed as often as its families have come to an end. -/
  freed : ∀ p, (events tr).count (.delete p true) + (if p ∈ s.families then 1 else 0) =
    (events tr).count (.new p)
  /-- There are as many counters as families. -/
  balance : s.allocated.card = s.families.card

/-- What becomes of the counters in any run. -/
structure Accounted (tr : List (HandleAct × List HandleEvent)) (s : Sockets) : Prop where
  /-- Counters count. -/
  counted : Counted s
  /-- What has been allocated has been freed, or is allocated. -/
  frees : ∀ p, (events tr).count (.delete p true) + (if p ∈ s.allocated then 1 else 0) =
    (events tr).count (.new p)
  /-- The family of a living object was founded on its descriptor. -/
  founded : ∀ k ∈ s.keys, Founded tr k.1 k.2
  /-- A counter without a living object belongs to a family with a negative descriptor. -/
  orphan : ∀ p ∈ s.allocated, p ∉ s.families → ∃ fd < 0, Founded tr fd p
  /-- The counter of a family with a negative descriptor stays with it for good. -/
  kept : ∀ fd p, Founded tr fd p → fd < 0 → p ∈ s.allocated ∧ ∀ k ∈ s.keys, k.2 = p → k.1 = fd

section Runs

variable {s s₀ s' : Sockets} {act : HandleAct} {es : List HandleEvent} {fd : ℤ} {p q : RefPtr}
  {tr : List (HandleAct × List HandleEvent)}

theorem founded_snoc :
    Founded (tr ++ [(act, es)]) fd p ↔ Founded tr fd p ∨ act.founds? = some (fd, p) := by
  simp [Founded, or_and_right, exists_or]

theorem accounted_init (h₀ : Sockets.machine.init s₀) : Accounted [] s₀ := by
  obtain ⟨opened, rfl⟩ := h₀
  refine ⟨counted_start opened, ?_, ?_, ?_, ?_⟩
  · intro p
    rfl
  · intro k hk
    exact absurd hk (Multiset.notMem_zero _)
  · intro p hp
    exact absurd hp (Finset.notMem_empty _)
  · rintro fd p ⟨st, hst, -⟩
    exact absurd hst List.not_mem_nil

theorem HandleEffect.count_delete (hc : Counted s) (he : HandleEffect s s' act es) (q : RefPtr) :
    es.count (.delete q true) + (if q ∈ s'.allocated then 1 else 0) =
      (if q ∈ s.allocated then 1 else 0) + es.count (.new q) := by
  cases he with
  | handOut fd hnone hfd hkeys halloc hvalue hopened => simp [halloc]
  | found fd p pre post hsome hp hkeys halloc hvalue hopened hpost =>
    have hdelete : (pre ++ .new p :: post).count (.delete q true) = 0 := by
      rw [List.count_eq_zero]
      rcases hopened with ⟨rfl, -⟩ | ⟨rfl, -⟩ <;> rcases hpost with rfl | rfl <;> simp
    have hnew : (pre ++ .new p :: post).count (.new q) = if p = q then 1 else 0 := by
      rcases hopened with ⟨rfl, -⟩ | ⟨rfl, -⟩ <;> rcases hpost with rfl | rfl <;>
        simp [List.count_cons]
    rw [hdelete, hnew, halloc]
    by_cases hpq : p = q
    · subst hpq
      simp [hp]
    · simp [hpq, Ne.symm hpq]
  | join fd p hnone hmem hkeys halloc hvalue hopened => simp [halloc]
  | leave fd p hnone hkeys halloc hvalue hopened hstay => simp [halloc]
  | last fd p hnone hkeys halloc hvalue hopened hone hfd =>
    have hp : p ∈ s.allocated := hc.alloc (fd, p) (hkeys ▸ Multiset.mem_cons_self _ _)
    rw [decide_eq_true hp, halloc]
    by_cases hpq : p = q
    · subst hpq
      simp [hp]
    · simp [hpq, Ne.symm hpq]

theorem Accounted.founded_step (h : Accounted tr s) (he : HandleEffect s s' act es)
    {k : ℤ × RefPtr} (hk : k ∈ s'.keys) : Founded (tr ++ [(act, es)]) k.1 k.2 := by
  rw [founded_snoc]
  cases hfounds : act.founds? with
  | none => exact .inl (h.founded k (he.mem_of_mem hfounds hk))
  | some k₀ =>
    rw [(he.keys_of_founds hfounds).2.1, Multiset.mem_cons] at hk
    rcases hk with rfl | hk
    · exact .inr rfl
    · exact .inl (h.founded k hk)

/-- A step orphans a counter only where the last object of a family with a negative descriptor
goes. -/
theorem Accounted.orphan_step (h : Accounted tr s) (he : HandleEffect s s' act es)
    (hq : q ∈ s'.allocated) (hnone : q ∉ s'.families) :
    ∃ fd < 0, Founded (tr ++ [(act, es)]) fd q := by
  have hold : q ∈ s.allocated → q ∉ s.families → ∃ fd < 0, Founded (tr ++ [(act, es)]) fd q := by
    intro hmem hno
    obtain ⟨fd, hneg, hfound⟩ := h.orphan q hmem hno
    exact ⟨fd, hneg, founded_snoc.mpr (.inl hfound)⟩
  cases he with
  | handOut fd hact hfd hkeys halloc hvalue hopened =>
    rw [Sockets.mem_families, hkeys, ← Sockets.mem_families] at hnone
    exact hold (halloc ▸ hq) hnone
  | found fd p pre post hsome hp hkeys halloc hvalue hopened hpost =>
    rw [Sockets.mem_families_cons hkeys, not_or] at hnone
    rw [halloc, Finset.mem_insert] at hq
    exact hold (hq.resolve_left hnone.1) hnone.2
  | join fd p hact hmem hkeys halloc hvalue hopened =>
    rw [Sockets.mem_families_cons hkeys, not_or] at hnone
    exact hold (halloc ▸ hq) hnone.2
  | leave fd p hact hkeys halloc hvalue hopened hstay =>
    -- only the family that loses an object can have lost its last
    by_cases hqp : q = p
    · subst hqp
      rcases hstay with hone | hneg
      · obtain ⟨k, hk, rfl⟩ := h.counted.exists_of_leave hkeys hone
        exact absurd (Sockets.mem_families.mpr ⟨_, hk, rfl⟩) hnone
      · have hmem : (fd, q) ∈ s.keys := hkeys ▸ Multiset.mem_cons_self _ _
        exact ⟨fd, hneg, founded_snoc.mpr (.inl (h.founded _ hmem))⟩
    · refine hold (halloc ▸ hq) ?_
      rw [Sockets.mem_families_cons hkeys.symm, not_or]
      exact ⟨hqp, hnone⟩
  | last fd p hact hkeys halloc hvalue hopened hone hfd =>
    rw [halloc, Finset.mem_erase] at hq
    refine hold hq.2 ?_
    rw [Sockets.mem_families_cons hkeys.symm, not_or]
    exact ⟨hq.1, hnone⟩

/-- The counter of a family with a negative descriptor is not freed, so it is not given out again
and nobody else comes to point to it. -/
theorem Accounted.kept_step (h : Accounted tr s) (he : HandleEffect s s' act es)
    (hfound : Founded (tr ++ [(act, es)]) fd q) (hneg : fd < 0) :
    q ∈ s'.allocated ∧ ∀ k ∈ s'.keys, k.2 = q → k.1 = fd := by
  rw [founded_snoc] at hfound
  cases hfounds : act.founds? with
  | none =>
    rw [hfounds] at hfound
    obtain ⟨hall, hsame⟩ := h.kept fd q (hfound.resolve_right (by simp)) hneg
    refine ⟨?_, fun k hk ↦ hsame k (he.mem_of_mem hfounds hk)⟩
    cases he with
    | found fd' p pre post hsome hp hkeys halloc => exact halloc ▸ Finset.mem_insert_of_mem hall
    | handOut fd' hnone hfd hkeys halloc => exact halloc ▸ hall
    | join fd' p hnone hmem hkeys halloc => exact halloc ▸ hall
    | leave fd' p hnone hkeys halloc => exact halloc ▸ hall
    | last fd' p hnone hkeys halloc hvalue hopened hone hfd =>
      -- what is freed belongs to a family with a descriptor
      have hmem : (fd', p) ∈ s.keys := hkeys ▸ Multiset.mem_cons_self _ _
      have hqp : q ≠ p := by
        rintro rfl
        have hfd' : fd' = fd := hsame _ hmem rfl
        omega
      rw [halloc, Finset.mem_erase]
      exact ⟨hqp, hall⟩
  | some k₀ =>
    obtain ⟨hp, hkeys, halloc⟩ := he.keys_of_founds hfounds
    rw [halloc, hkeys, Finset.mem_insert]
    rcases hfound with hfound | hact
    · obtain ⟨hmem, hsame⟩ := h.kept fd q hfound hneg
      refine ⟨.inr hmem, ?_⟩
      intro k hk hkq
      rcases Multiset.mem_cons.mp hk with rfl | hk
      · exact absurd (hkq ▸ hmem) hp
      · exact hsame k hk hkq
    · rw [hfounds, Option.some_inj] at hact
      subst hact
      refine ⟨.inl rfl, ?_⟩
      intro k hk hkq
      rcases Multiset.mem_cons.mp hk with rfl | hk
      · rfl
      · exact absurd (hkq ▸ h.counted.alloc k hk) hp

theorem Accounted.step (h : Accounted tr s) (hs : s.step act = some (s', es)) :
    Accounted (tr ++ [(act, es)]) s' := by
  have he := HandleEffect.of_step hs
  refine ⟨h.counted.step he, ?_, ?_, ?_, ?_⟩
  · intro q
    have hold := h.frees q
    have hnew := he.count_delete h.counted q
    rw [events_append, events_singleton, List.count_append, List.count_append]
    omega
  · intro k hk
    exact h.founded_step he hk
  · intro q hq hnone
    exact h.orphan_step he hq hnone
  · intro fd q hfound hneg
    exact h.kept_step he hfound hneg

theorem accounted_run (h₀ : Sockets.machine.init s₀) (h : Run Sockets.machine Always s₀ tr s) :
    Accounted tr s :=
  h.history (accounted_init h₀) fun _ hP _ hs ↦ hP.step hs

theorem Counted.families_subset (h : Counted s) : s.families ⊆ s.allocated := by
  intro p hp
  obtain ⟨k, hk, rfl⟩ := Sockets.mem_families.mp hp
  exact h.alloc k hk

/-- **When no counter is leaked.** In every run, each counter has been freed once for every family
that had it and has come to an end, and as many counters are allocated as there are families with a
living object, if and only if every family founded on a negative descriptor still has one. -/
theorem noLeak_iff (h₀ : Sockets.machine.init s₀) (h : Run Sockets.machine Always s₀ tr s) :
    NoLeak tr s ↔ ∀ fd p, Founded tr fd p → fd < 0 → p ∈ s.families := by
  have hacc : Accounted tr s := accounted_run h₀ h
  constructor
  · intro hno fd p hfound hneg
    have hall : s.families = s.allocated :=
      Finset.eq_of_subset_of_card_le hacc.counted.families_subset hno.balance.le
    rw [hall]
    exact (hacc.kept fd p hfound hneg).1
  · intro hlive
    -- an allocated counter without a living object would belong to a family that still has one
    have hall : s.families = s.allocated := by
      apply Finset.Subset.antisymm hacc.counted.families_subset
      intro p hp
      by_contra hnone
      obtain ⟨fd, hneg, hfound⟩ := hacc.orphan p hp hnone
      exact hnone (hlive fd p hfound hneg)
    constructor
    · intro p
      rw [hall]
      exact hacc.frees p
    · rw [hall]

/-- The objects that `Socket::accept` makes, moves and destroys. -/
def objects (log : List (Event SysResult AcceptAct)) : List HandleAct :=
  log.filterMap fun
    | .act (.obj a) => some a
    | _ => none

/-- A connection that is accepted at the second attempt. -/
def acceptedLate : List HandleAct :=
  objects (Socket.accept 0
    [⟨.fail EAGAIN, "", 0, 64⟩, ⟨.ok 5, "10.0.0.1", 8099, 80⟩]).1

/-- A connection that is accepted at once, and dropped. -/
def acceptedAtOnce : List HandleAct :=
  objects (Socket.accept 0 [⟨.ok 5, "10.0.0.1", 8099, 80⟩]).1 ++ [.destroy 1]

theorem noLeak_iff_accepted_at_once :
    ∃ tr s, Run Sockets.machine Always (Sockets.start ∅) tr s ∧ s.live = [] ∧
      (NoLeak tr s ↔ ∀ fd p, Founded tr fd p → fd < 0 → p ∈ s.families) := by
  have h := run_after (M := Sockets.machine) (C := Always) (s := Sockets.start ∅) acceptedAtOnce
  exact ⟨_, _, h, by decide, noLeak_iff ⟨∅, rfl⟩ h⟩

/-- The failed attempt leaks its counter: the call has returned, one connection is alive, and two
counters are allocated. -/
theorem leaks_accepted_late :
    ¬ ∀ (s₀ s : Sockets) (tr : List (HandleAct × List HandleEvent)), Sockets.machine.init s₀ →
      Run Sockets.machine Always s₀ tr s → NoLeak tr s := by
  intro h
  have hrun := run_after (M := Sockets.machine) (C := Always) (s := Sockets.start ∅) acceptedLate
  have hcard := (h _ _ _ ⟨∅, rfl⟩ hrun).balance
  exact absurd hcard (by decide)

end Runs

end Copnet
