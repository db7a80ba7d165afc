import Copnet.Runtime.Lifecycle

/-!
# No orphaned coroutine

A coroutine suspends itself on four paths, and on three of them what will wake it is in place before
the context switch whatever happens: the heap entry of `co_sleep`, and the waiter of `rlock` or
`wlock`, which a hand-over turns into a queue entry. The fourth is `waitEvent`, which drops the
result of `addEv` and suspends the coroutine also when the descriptor could not be registered. In
a run in which this does not happen no coroutine is orphaned, and a second coroutine waiting on the
same descriptor is enough for it to happen.
-/

open Transition Ledger

namespace Copnet

/-- What makes the coroutine at `a` of processor `p` run again is pending. -/
def Sys.WakeUpPending (s : Sys) (p : Pid) (a : Addr) : Prop :=
  (∃ fd, (s.pros p).epoller.registered fd = some (some a)) ∨
    a ∈ (s.pros p).timer.heap.sleepers ∨ (∃ m, a ∈ (s.mus m).waitingCo) ∨
    a ∈ (s.pros p).queue.contents.map Entry.co ∨ a ∈ (s.pros p).expiredRest ∨
    some a ∈ (s.pros p).activeRest

/-- The program keeps to its discipline, and `waitEvent` registers its descriptor. -/
def Registers (s : Sys) (act : Action) : Prop := Disciplined s act ∧ ¬AddEvFails s act

instance (s : Sys) (act : Action) : Decidable (AddEvFails s act) := by
  unfold AddEvFails
  split <;> infer_instance

instance (s : Sys) (act : Action) : Decidable (Registers s act) := by
  unfold Registers
  infer_instance

/-- A coroutine that is suspended, or will be as soon as it has switched away, has a source. -/
def Life.Sourced : Life → Prop
  | .exec _ code src => code.goesOnAt ≠ none → src ≠ .idle
  | .parked _ src => src ≠ .idle
  | _ => True

theorem LifeStep.sourced {s : Sys} {act : Action} {a : Addr} {ℓ ℓ' : Life} {es : List Event}
    (h : LifeStep s act a ℓ es ℓ') (hadd : ¬AddEvFails s act) (hℓ : ℓ.Sourced) : ℓ'.Sourced := by
  cases h with
  | stay => exact hℓ
  | code c code code' src hgoes => exact fun hne ↦ hℓ (by rwa [hgoes] at hne)
  | addEvFails c fd hfails => exact absurd hfails hadd
  | park c k src => exact hℓ (Option.some_ne_none k)
  | handOver c m | collect c fd => exact Source.noConfusion
  | addEv c fd | sleep c time runTime | wait c m k hk | handOverEarly c code m =>
    exact fun _ ↦ Source.noConfusion
  | enter c que | removeEv c fd | pop c que | resume c src hsrc => exact fun hne ↦ absurd rfl hne
  | make c maker hserial | go c maker | ret c | delete c => trivial

theorem sourced_of_reachable {s : Sys} (h : Reachable machine Registers s) :
    ∃ L, Lives s L ∧ ∀ a, (L a).Sourced := by
  refine h.invariant (P := fun s ↦ ∃ L, Lives s L ∧ ∀ a, (L a).Sourced)
    (fun hinit ↦ ⟨_, lives_of_init hinit, fun _ ↦ trivial⟩) ?_
  rintro t u act es ⟨L, hL, hsrc⟩ ⟨hdisc, hadd⟩ hstep
  obtain ⟨L', hL', hlife⟩ := (Step.of_step hstep).lives hdisc hL
  exact ⟨L', hL', fun a ↦ (hlife a).sourced hadd (hsrc a)⟩

theorem Fits.wakeUpPending {s : Sys} {a : Addr} {c : Coroutine} {src : Source}
    (hf : Fits s a (.parked c src)) (hsrc : src ≠ .idle) :
    s.WakeUpPending c.pMyProcessor a := by
  have hpos : ∀ x ∈ src.places c.pMyProcessor, 0 < s.ledger x a := fun x hx ↦ by
    rw [hf.places]
    exact List.count_pos_iff.mpr (List.mem_cons_of_mem _ hx)
  cases src with
  | idle => exact absurd rfl hsrc
  | queue =>
    have hqueue := hpos (.pro c.pMyProcessor .queue) (by simp [Source.places])
    exact .inr (.inr (.inr (.inl (List.count_pos_iff.mp hqueue))))
  | sleep =>
    have hsleep := hpos (.pro c.pMyProcessor .sleep) (by simp [Source.places])
    simp only [Sys.ledger, Processor.ledger, Nat.add_pos_iff_pos_or_pos] at hsleep
    rcases hsleep with hheap | hexp
    · exact .inr (.inl (List.count_pos_iff.mp hheap))
    · exact .inr (.inr (.inr (.inr (.inl (List.count_pos_iff.mp hexp)))))
  | event fd collected =>
    have hreg := hpos (.pro c.pMyProcessor (.reg fd)) (by cases collected <;> simp [Source.places])
    simp only [Sys.ledger, Processor.ledger] at hreg
    split at hreg
    · next h => exact .inl ⟨fd, h⟩
    · simp at hreg
  | waiting m =>
    have hmu := hpos (.mu m) (by simp [Source.places])
    exact .inr (.inr (.inl ⟨m, List.count_pos_iff.mp hmu⟩))

theorem Lives.of_waiting {s : Sys} {L : Addr → Life} (hL : Lives s L) {a : Addr} {c : Coroutine}
    (hco : s.cos a = some c) (hst : c.status = .waiting)
    (hexec : ∀ code, (s.pros c.pMyProcessor).exec ≠ some (a, code)) :
    ∃ src, L a = .parked c src := by
  have hfit := hL.fits a
  rcases hfit.of_status_waiting hco hst with ⟨code, src, hlife⟩ | hparked
  · rw [hlife] at hfit
    exact absurd hfit.exec_eq (hexec code)
  · exact hparked

/-- **No orphaned coroutine**, in every run in which `waitEvent` registers its descriptors: for a
coroutine that waits and does not execute a wake-up is pending. -/
theorem no_orphan {s : Sys} (h : Reachable machine Registers s) {a : Addr} {c : Coroutine}
    (hco : s.cos a = some c) (hst : c.status = .waiting)
    (hexec : ∀ code, (s.pros c.pMyProcessor).exec ≠ some (a, code)) :
    s.WakeUpPending c.pMyProcessor a := by
  obtain ⟨L, hL, hsrc⟩ := sourced_of_reachable h
  obtain ⟨src, hlife⟩ := hL.of_waiting hco hst hexec
  have hfit := hL.fits a
  have hne := hsrc a
  rw [hlife] at hfit hne
  exact hfit.wakeUpPending hne

/-- A coroutine waits for descriptor `3`. -/
def thenWait : List Action := [.user 0 (.waitEvent 3 true), .co 0, .co 0]

theorem no_orphan_one_waits : ∃ s, Reachable machine Registers s ∧
    s.cos 7 = some ⟨0, .waiting, (7, .removeEv 3), 0⟩ ∧ s.WakeUpPending 0 7 := by
  have h : Reachable machine Registers
      (machine.after Registers (Sys.fresh 0) (toUser ++ thenWait)).1 :=
    ⟨_, _, ⟨0, rfl⟩, run_after _⟩
  have hco : (machine.after Registers (Sys.fresh 0) (toUser ++ thenWait)).1.cos 7 =
      some ⟨0, .waiting, (7, .removeEv 3), 0⟩ := by decide
  have hexec : ((machine.after Registers (Sys.fresh 0) (toUser ++ thenWait)).1.pros 0).exec =
      none := by decide
  have hpending := no_orphan h hco rfl fun code hne ↦ Option.some_ne_none _ (hne.symm.trans hexec)
  exact ⟨_, h, hco, hpending⟩

/-- Another coroutine gets to run and waits for the same descriptor. -/
def thenBothWait : List Action :=
  thenWait ++ [.extCall 0 (.goNewCo 0 8), .ext 0, .ext 0] ++ List.replicate 5 (.loop 0) ++
    [.epoll 0 []] ++ List.replicate 7 (.loop 0) ++ thenWait

/-- The second of two coroutines of a processor that wait for the same descriptor is suspended with
nothing to wake it. -/
theorem orphans_second_waiter : ¬∀ s, Reachable machine Disciplined s → ∀ a c, s.cos a = some c →
    c.status = .waiting → (∀ code, (s.pros c.pMyProcessor).exec ≠ some (a, code)) →
      s.WakeUpPending c.pMyProcessor a := by
  intro hall
  let r := machine.after Disciplined (Sys.fresh 0) (toUser ++ thenBothWait)
  have h : Reachable machine Disciplined r.1 := ⟨_, _, ⟨0, rfl⟩, run_after _⟩
  have hco : r.1.cos 8 = some ⟨0, .waiting, (8, .removeEv 3), 1⟩ := by decide
  have hexec : (r.1.pros 0).exec = none := by decide
  have hreg : (r.1.pros 0).epoller.registered = (Function.update (Function.update (fun _ ↦ none)
      0 (some none)) 3 (some (some 7)) : Fd → Option (Option Addr)) := by rfl
  have hmus : r.1.mus = fun _ ↦ .created := by rfl
  rcases hall r.1 h 8 _ hco rfl fun code hne ↦ Option.some_ne_none _ (hne.symm.trans hexec) with
    ⟨fd, hfd⟩ | hheap | ⟨m, hm⟩ | hqueue | hexp | hact
  · rw [hreg] at hfd
    by_cases h3 : fd = 3
    · simp [h3] at hfd
    · by_cases h0 : fd = 0 <;> simp [h3, h0] at hfd
  · exact absurd hheap (by decide)
  · simp [hmus, RWMutex.created] at hm
  · exact absurd hqueue (by decide)
  · exact absurd hexp (by decide)
  · exact absurd hact (by decide)

end Copnet
