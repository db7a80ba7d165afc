import Copnet.Runtime.Lifecycle

/-!
# Current coroutines, and whose containers hold whom

Every suspension in the runtime acts on `pCurCoroutine_` of the processor of the calling thread, a
field that is never reset and that `Processor::resume` overwrites before it knows whether it will
switch. That it is the calling coroutine all the same is part of `Lives`. The rest of this module is
about the containers: a processor's containers hold pointers into the processor's own pool only,
also the parts of its lists that it has processed already, which the ledger does not count.

The status of a coroutine whose code executes is `CO_RUNNING` but for the end of a suspension:
`Coroutine::yield` sets it to `CO_WAITING` while the code of the coroutine goes on as far as the
context switch, through `runAfter` in the case of `Processor::wait`.
-/

open Transition Ledger

namespace Copnet

/-- Some container of the processor holds the pointer. -/
def Processor.Contains (P : Processor) (a : Addr) : Prop :=
  a ∈ P.coSet ∨ a ∈ P.queue.contents.map Entry.co ∨ a ∈ P.timer.heap.sleepers ∨
    (∃ fd, P.epoller.registered fd = some (some a)) ∨ a ∈ P.timerExpiredCo ∨
    some a ∈ P.actCoroutines ∨ a ∈ P.removedCo

/-- Objects and pointers are where the pool of the processor is. -/
structure Owned (s : Sys) : Prop where
  object : ∀ a c, s.cos a = some c → s.pool a = some c.pMyProcessor
  expired : ∀ p a, a ∈ (s.pros p).timerExpiredCo → s.pool a = some p
  active : ∀ p a, some a ∈ (s.pros p).actCoroutines → s.pool a = some p
  removed : ∀ p a, a ∈ (s.pros p).removedCo → s.pool a = some p

section Steps

variable {s s' : Sys} {L : Addr → Life} {act : Action} {es : List Event}

theorem Lives.owner (hL : Lives s L) {p : Pid} {spot : Spot} {a : Addr}
    (h : s.ledger (.pro p spot) a ≠ 0) (hspot : ∀ r, spot ≠ .makes r) :
    ∃ c, s.cos a = some c ∧ c.pMyProcessor = p := by
  have hmem := (hL.fits a).mem_places h
  have hco := (hL.fits a).co
  rcases hlife : L a with _ | ⟨c, _ | _⟩ | c | ⟨c, code, src⟩ | ⟨c, src⟩ | c
  all_goals
    rw [hlife] at hmem hco
    simp_all [Life.places, Source.mem_places, Maker.place, Life.co]
  all_goals grind

theorem Lives.of_coSet (hL : Lives s L) {p : Pid} {a : Addr} (ha : a ∈ (s.pros p).coSet) :
    ∃ c, s.cos a = some c ∧ c.pMyProcessor = p := by
  have hne : s.ledger (.pro p .inSet) a ≠ 0 := by simp [Sys.ledger, Processor.ledger, ha]
  exact hL.owner hne (by simp)

/-! ## The pools -/

/-- A block stays in its pool, and what `new_obj` builds on a processor is in the pool of it. -/
theorem Step.pool (hs : Step s act s' es) (a : Addr) (q : Pid) :
    (s.pool a = some q → s'.pool a = some q) ∧
      ∀ n, .made a n q ∈ es → s'.pool a = some q := by
  have hnew : ∀ {r b}, s.MayAlloc r b → (s.pool a = some q →
      Function.update s.pool b (some r) a = some q) ∧ ∀ n, Event.made a n q ∈
        [Event.made b s.nextSerial r] → Function.update s.pool b (some r) a = some q := by
    rintro r b ⟨-, hpool⟩
    by_cases hab : a = b
    · subst hab
      constructor
      · intro h
        rcases hpool with hnone | hsome
        · simp [h] at hnone
        · rw [Function.update_self, ← hsome, h]
      · intro n h
        simp only [List.mem_singleton, Event.made.injEq] at h
        rw [Function.update_self, h.2.2]
    · exact ⟨fun h ↦ by rwa [Function.update_of_ne hab], fun n h ↦ by simp [hab] at h⟩
  cases hs with
  | goNewCo hexec hfree => exact hnew hfree
  | extGoNewCo hidle hfree => exact hnew hfree
  | timer hexec hpc ha hres | pop hexec hpc hcons hres | event hexec hpc hpCo hres =>
    cases hres <;> exact ⟨id, by simp⟩
  | _ => exact ⟨id, by simp⟩

/-! ## The objects -/

theorem LifeStep.owner {a : Addr} {ℓ ℓ' : Life} (h : LifeStep s act a ℓ es ℓ') {c' : Coroutine}
    (hc : ℓ'.co = some c') :
    (∃ c, ℓ.co = some c ∧ c.pMyProcessor = c'.pMyProcessor) ∨
      .made a c'.serial c'.pMyProcessor ∈ es := by
  cases h with
  | stay => exact .inl ⟨c', hc, rfl⟩
  | make c maker hserial =>
    cases hc
    exact .inr (List.mem_singleton_self _)
  | delete c => simp [Life.co] at hc
  | _ =>
    cases hc
    exact .inl ⟨_, rfl, rfl⟩

/-! ## The lists of a loop -/

theorem Effect.lists {clock : ℤ} {call : ℕ} {q : Pid} {P : Processor} {L : LoopState}
    (h : Effect clock call q P act L es) :
    (∀ a ∈ L.timerExpiredCo, a ∈ P.timerExpiredCo ∨ a ∈ P.timer.heap.sleepers) ∧
      ∀ a, some a ∈ L.actCoroutines →
        some a ∈ P.actCoroutines ∨ ∃ fd, P.epoller.registered fd = some (some a) := by
  cases h with
  | top hexec hpc => exact ⟨by simp, by simp⟩
  | epoll hexec hpc =>
    refine ⟨fun a ha ↦ .inl ha, fun a ha ↦ ?_⟩
    rcases List.mem_append.mp ha with hold | hnew
    · exact .inl hold
    · obtain ⟨fd, -, hreg⟩ := List.mem_filterMap.mp hnew
      exact .inr ⟨fd, hreg⟩
  | getExpired hexec hpc =>
    refine ⟨fun a ha ↦ (List.mem_append.mp ha).imp_right fun hnew ↦ ?_, fun a ha ↦ .inl ha⟩
    rw [← P.timer.heap.expired_append (Time.now clock)]
    exact List.mem_append_left _ hnew
  | _ => exact ⟨fun a ha ↦ .inl ha, fun a ha ↦ .inl ha⟩

theorem ThreadEffect.removedCo {q : Pid} {P P' : Processor} (h : ThreadEffect q P P' es) {b : Addr}
    (hb : b ∈ P'.removedCo) :
    b ∈ P.removedCo ∨ P.exec ≠ none ∧ P.pCurCoroutine = some b := by
  cases h with
  | ret hexec hcur hexec' hpc hrem =>
    rw [hrem] at hb
    rcases List.mem_append.mp hb with hold | hnew
    · exact .inl hold
    · rw [List.mem_singleton.mp hnew]
      exact .inr ⟨hexec, hcur⟩
  | top hexec hexec' hpc hrem => simp [hrem] at hb
  | stay _ _ hrem | suspend _ _ _ hrem | init _ _ _ _ hrem | loop _ _ _ _ hrem
  | resume _ _ _ hrem =>
    exact .inl (hrem ▸ hb)

theorem Owned.step (h : Owned s) (hL : Lives s L) (hdisc : Disciplined s act)
    (hs : Step s act s' es) : Owned s' := by
  have hkeep : ∀ {a q}, s.pool a = some q → s'.pool a = some q := fun {a q} ↦ (hs.pool a q).1
  have hplace : ∀ {q a} spot, s.ledger (.pro q spot) a ≠ 0 → (∀ r, spot ≠ .makes r) →
      s'.pool a = some q := fun _ hne hspot ↦ by
    obtain ⟨c, hco, rfl⟩ := hL.owner hne hspot
    exact hkeep (h.object _ c hco)
  obtain ⟨L', hL', hstep⟩ := hs.lives hdisc hL
  refine ⟨?_, ?_, ?_, ?_⟩
  · intro a c hco
    rw [(hL'.fits a).co] at hco
    rcases (hstep a).owner hco with ⟨c₀, hco₀, hp⟩ | hmade
    · rw [← hp]
      exact hkeep (h.object a c₀ (by rw [(hL.fits a).co, hco₀]))
    · exact (hs.pool a _).2 _ (List.mem_of_mem_filter hmade)
  · intro q a ha
    rcases (hs.effect q).lists.1 a ha with hold | hnew
    · exact hkeep (h.expired q a hold)
    · refine hplace .sleep ?_ (by simp)
      have := List.count_pos_iff.mpr hnew
      simp only [Sys.ledger, Processor.ledger]
      omega
  · intro q a ha
    rcases (hs.effect q).lists.2 a ha with hold | ⟨fd, hreg⟩
    · exact hkeep (h.active q a hold)
    · exact hplace (.reg fd) (by simp [Sys.ledger, Processor.ledger, hreg]) (by simp)
  · intro q a ha
    rcases (hs.threadEffect q).removedCo ha with hold | ⟨hexec, hcur⟩
    · exact hkeep (h.removed q a hold)
    · obtain ⟨⟨x, code⟩, hx⟩ := Option.ne_none_iff_exists'.mp hexec
      obtain ⟨c, src, -, hp, hco, hcur', -⟩ := hL.executing hx
      obtain rfl := Option.some.inj (hcur'.symm.trans hcur)
      rw [← hp]
      exact hkeep (h.object x c hco)

end Steps

theorem Owned.pool_of_contains {s : Sys} {L : Addr → Life} (h : Owned s) (hL : Lives s L) {p : Pid}
    {a : Addr} (ha : (s.pros p).Contains a) : s.pool a = some p := by
  have hplace : ∀ spot, s.ledger (.pro p spot) a ≠ 0 → (∀ r, spot ≠ .makes r) →
      s.pool a = some p := fun _ hne hspot ↦ by
    obtain ⟨c, hco, rfl⟩ := hL.owner hne hspot
    exact h.object _ c hco
  rcases ha with hset | hqueue | hheap | ⟨fd, hreg⟩ | hexp | hact | hrem
  · exact hplace .inSet (by simp [Sys.ledger, Processor.ledger, hset]) (by simp)
  · exact hplace .queue (List.count_pos_iff.mpr hqueue).ne' (by simp)
  · refine hplace .sleep ?_ (by simp)
    have := List.count_pos_iff.mpr hheap
    simp only [Sys.ledger, Processor.ledger]
    omega
  · exact hplace (.reg fd) (by simp [Sys.ledger, Processor.ledger, hreg]) (by simp)
  · exact h.expired p a hexp
  · exact h.active p a hact
  · exact h.removed p a hrem

theorem owned_of_init {s : Sys} (h : machine.init s) : Owned s := by
  obtain ⟨clock, rfl⟩ := h
  exact ⟨by simp [Sys.fresh], by simp [Sys.fresh, Sys.freshPro], by simp [Sys.fresh, Sys.freshPro],
    by simp [Sys.fresh, Sys.freshPro]⟩

theorem owned_of_reachable {s : Sys} (h : Reachable machine Disciplined s) :
    ∃ L, Lives s L ∧ Owned s := by
  refine h.invariant (P := fun s ↦ ∃ L, Lives s L ∧ Owned s)
    (fun hinit ↦ ⟨_, lives_of_init hinit, owned_of_init hinit⟩) ?_
  rintro t u act es ⟨L, hL, howned⟩ hc hstep
  have hs := Step.of_step hstep
  obtain ⟨L', hL', -⟩ := hs.lives hc hL
  exact ⟨L', hL', howned.step hL hc hs⟩

/-! ## The current coroutine -/

/-- A coroutine of `p` that is in `CO_RUNNING` either executes or has returned. -/
theorem Lives.of_running {s : Sys} {L : Addr → Life} (hL : Lives s L) {a : Addr} {c : Coroutine}
    (hco : s.cos a = some c) (hst : c.status = .running) :
    (∃ code, (s.pros c.pMyProcessor).exec = some (a, code)) ∨
      a ∈ (s.pros c.pMyProcessor).removedCo := by
  have hfit := hL.fits a
  rcases hfit.of_status_running hco hst with ⟨code, src, hlife⟩ | hlife
  all_goals rw [hlife] at hfit
  · exact .inl ⟨code, hfit.exec_eq⟩
  · have hdead := hfit.places (.pro c.pMyProcessor .dead)
    have hmem : a ∈ (s.pros c.pMyProcessor).removedRest := by
      refine List.count_pos_iff.mp ?_
      simp [Sys.ledger, Processor.ledger, Life.places] at hdead
      omega
    refine .inr ?_
    unfold Processor.removedRest at hmem
    split at hmem
    · exact List.mem_of_mem_drop hmem
    · exact hmem

/-- **Current-coroutine identity and processor affinity.** Code of a coroutine executes on the
thread of the processor that created it and is that processor's current coroutine, in the status
that goes with the code; the coroutines of the processor that are in `CO_RUNNING` besides it have
returned. And no container of a processor holds a coroutine that was created on another one. -/
theorem current_coroutine {s : Sys} (h : Reachable machine Disciplined s) (p : Pid) :
    (∀ x code, (s.pros p).exec = some (x, code) →
      (∃ c, s.cos x = some c ∧ c.pMyProcessor = p ∧ (s.pros p).pCurCoroutine = some x ∧
        c.status = code.status) ∧
      ∀ a c, s.cos a = some c → c.pMyProcessor = p → c.status = .running →
        a = x ∨ a ∈ (s.pros p).removedCo) ∧
      ∀ a c, (s.pros p).Contains a → s.cos a = some c → c.pMyProcessor = p := by
  obtain ⟨L, hL, howned⟩ := owned_of_reachable h
  refine ⟨fun x code hexec ↦ ⟨?_, fun a c hco hp hst ↦ ?_⟩, fun a c ha hco ↦ ?_⟩
  · obtain ⟨c, src, -, hp, hco, hcur, hst, -⟩ := hL.executing hexec
    exact ⟨c, hco, hp, hcur, hst⟩
  · rcases hL.of_running hco hst with ⟨code', hexec'⟩ | hrem
    · rw [hp, hexec] at hexec'
      cases hexec'
      exact .inl rfl
    · rw [hp] at hrem
      exact .inr hrem
  · have hpool := howned.object a c hco
    rw [howned.pool_of_contains hL ha] at hpool
    exact (Option.some.inj hpool).symm

/-- A coroutine calls `co_sleep`, which so far has set its status only. -/
def thenYield : List Action := [.user 0 (.sleep 5)]

theorem current_coroutine_asleep : ∃ s, Reachable machine Disciplined s ∧
    (s.pros 0).exec = some (7, .sleep 5) ∧ ∃ c, s.cos 7 = some c ∧ c.pMyProcessor = 0 ∧
      (s.pros 0).pCurCoroutine = some 7 ∧ c.status = .waiting := by
  have h : Reachable machine Disciplined
      (machine.after Disciplined (Sys.fresh 0) (toUser ++ thenYield)).1 :=
    ⟨_, _, ⟨0, rfl⟩, run_after _⟩
  have hexec : ((machine.after Disciplined (Sys.fresh 0) (toUser ++ thenYield)).1.pros 0).exec =
      some (7, .sleep 5) := by decide
  exact ⟨_, h, hexec, ((current_coroutine h 0).1 7 (.sleep 5) hexec).1⟩

/-- The code of a coroutine executes while its status is `CO_WAITING`. -/
theorem executes_while_waiting : ¬∀ s, Reachable machine Disciplined s → ∀ p x code c,
    (s.pros p).exec = some (x, code) → s.cos x = some c → c.status = .running := by
  intro hall
  have h : Reachable machine Disciplined
      (machine.after Disciplined (Sys.fresh 0) (toUser ++ thenYield)).1 :=
    ⟨_, _, ⟨0, rfl⟩, run_after _⟩
  have hst := hall _ h 0 7 (.sleep 5) ⟨0, .waiting, (7, .user), 0⟩ (by decide) (by decide)
  exact absurd hst (by decide)

end Copnet
