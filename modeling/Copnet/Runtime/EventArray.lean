import Copnet.Runtime.Effect
import Mathlib.Order.Bounds.Defs
import Mathlib.Order.Monotone.Basic

/-!
# The array of reported events

`epoll_wait` writes its reports into `activeEpollEvents_` and is told its size. `getActEvServ`
doubles the array when a report has filled it, and never makes it smaller. So its size is at every
time the first one in the sequence 16, 32, 64 and so on that no report so far has filled.
-/

open Transition

namespace Copnet

/-- The size of `activeEpollEvents_` after `k` doublings of `parameter::epollerListFirstSize`. -/
def arraySize (k : ℕ) : ℕ := 16 * 2 ^ k

theorem arraySize_succ (k : ℕ) : arraySize (k + 1) = arraySize k * 2 := by
  rw [arraySize, arraySize, Nat.pow_succ, Nat.mul_assoc]

theorem arraySize_strictMono : StrictMono arraySize := by
  refine strictMono_nat_of_lt_succ fun k ↦ ?_
  have hpos : 0 < arraySize k := Nat.mul_pos (by decide) (Nat.two_pow_pos k)
  rw [arraySize_succ]
  omega

/-- The sizes that exceed all of `ns`. -/
def exceeding (ns : List ℕ) : Set ℕ := {k | ∀ n ∈ ns, n < arraySize k}

theorem isLeast_exceeding_snoc {ns : List ℕ} {n k : ℕ} (h : IsLeast (exceeding ns) k)
    (hn : n ≤ arraySize k) :
    IsLeast (exceeding (ns ++ [n])) (if n = arraySize k then k + 1 else k) := by
  obtain ⟨hall, hleast⟩ := h
  have hlt : arraySize k < arraySize (k + 1) := arraySize_strictMono (Nat.lt_succ_self k)
  have hold : ∀ j ∈ exceeding (ns ++ [n]), k ≤ j :=
    fun j hj ↦ hleast fun m hm ↦ hj m (List.mem_append_left _ hm)
  split
  · next hfull =>
    constructor
    · intro m hm
      rcases List.mem_append.mp hm with hm | hm
      · exact (hall m hm).trans hlt
      · rw [List.mem_singleton.mp hm, hfull]
        exact hlt
    · intro j hj
      have hlast := hj n (List.mem_append_right _ List.mem_cons_self)
      rw [hfull] at hlast
      exact arraySize_strictMono.lt_iff_lt.mp hlast
  · next hfull =>
    refine ⟨fun m hm ↦ ?_, hold⟩
    rcases List.mem_append.mp hm with hm | hm
    · exact hall m hm
    · rw [List.mem_singleton.mp hm]
      exact Nat.lt_of_le_of_ne hn hfull

def Action.reported (q : Pid) : Action → Option ℕ
  | .epoll p fds => if p = q then some fds.length else none
  | _ => none

def reportSizes (q : Pid) (tr : List (Action × List Event)) : List ℕ :=
  tr.filterMap fun st ↦ st.1.reported q

theorem reportSizes_snoc (q : Pid) (tr : List (Action × List Event)) (act : Action)
    (es : List Event) :
    reportSizes q (tr ++ [(act, es)]) = reportSizes q tr ++ (act.reported q).toList := by
  rw [reportSizes, List.filterMap_append, List.filterMap_cons, List.filterMap_nil, reportSizes]
  cases act.reported q <;> rfl

theorem Effect.maxEvents {clock : ℤ} {call : ℕ} {q : Pid} {P : Processor} {act : Action}
    {L : LoopState} {es : List Event} (h : Effect clock call q P act L es) :
    (∃ fds, act.reported q = some fds.length ∧ P.epoller.Reports fds ∧
        L.maxEvents = (P.epoller.grow fds).maxEvents) ∨
      act.reported q = none ∧ L.maxEvents = P.epoller.maxEvents := by
  have hother : act.ofLoop q = false → act.reported q = none := by
    intro hact
    cases act with
    | epoll p fds => simp_all [Action.ofLoop, Action.reported]
    | _ => rfl
  cases h with
  | epoll hexec hpc hrep => exact .inl ⟨_, if_pos rfl, hrep, rfl⟩
  | stay hact | push _ hact | wakeUp hact => exact .inr ⟨hother hact, rfl⟩
  | _ => exact .inr ⟨rfl, rfl⟩

/-- **The size of the array.** In every run, the array of each epoller has the least of its possible
sizes that exceeds all reports so far. -/
theorem event_array_least {s₀ s : Sys} {tr : List (Action × List Event)}
    (hinit : machine.init s₀) (h : Run machine Always s₀ tr s) (q : Pid) :
    ∃ k, (s.pros q).epoller.maxEvents = arraySize k ∧ IsLeast (exceeding (reportSizes q tr)) k := by
  refine h.history (P := fun tr s ↦ ∃ k, (s.pros q).epoller.maxEvents = arraySize k ∧
    IsLeast (exceeding (reportSizes q tr)) k) ?_ ?_
  · obtain ⟨clock, rfl⟩ := hinit
    exact ⟨0, rfl, fun n hn ↦ absurd hn List.not_mem_nil, fun j _ ↦ Nat.zero_le j⟩
  · rintro tr s s' act es - ⟨k, hk, hleast⟩ - hstep
    have heff := ((Step.of_step hstep).effect q).maxEvents
    rw [reportSizes_snoc]
    rcases heff with ⟨fds, hact, ⟨-, hle, -⟩, hgrow⟩ | ⟨hact, hsame⟩
    · rw [hact, Option.toList_some]
      refine ⟨_, ?_, isLeast_exceeding_snoc hleast (hk ▸ hle)⟩
      rw [Epoller.grow, hk] at hgrow
      split at hgrow
      · next hfull => rw [if_pos hfull, arraySize_succ]; exact hgrow
      · next hfull => rw [if_neg hfull]; exact hgrow.trans hk
    · rw [hact, Option.toList_none, List.append_nil]
      exact ⟨k, hsame.trans hk, hleast⟩

/-- Fifteen coroutines are made, and each waits for a descriptor of its own as soon as it runs. The
timer has descriptor `0`. -/
def toWaiters : List Action :=
  .start 0 0 :: (List.range 15).flatMap (fun a ↦ [.extCall 0 (.goNewCo 0 a), .ext 0, .ext 0]) ++
    [.loop 0, .epoll 0 []] ++ List.replicate 10 (.loop 0) ++
    [.epoll 0 []] ++ List.replicate 5 (.loop 0) ++
    (List.range 15).flatMap (fun a ↦
      [.loop 0, .loop 0, .user 0 (.waitEvent (a + 1) true), .co 0, .co 0]) ++
    List.replicate 5 (.loop 0)

/-- All of them are reported with the timer, which fills the array. -/
theorem event_array_least_full : ∃ s tr, Run machine Always (Sys.fresh 0) tr s ∧
    (s.pros 0).epoller.maxEvents = 32 ∧ reportSizes 0 tr = [0, 0, 16] ∧
      ∃ k, (s.pros 0).epoller.maxEvents = arraySize k ∧ IsLeast (exceeding [0, 0, 16]) k := by
  let r := machine.after Always (Sys.fresh 0) (toWaiters ++ [.epoll 0 (List.range 16)])
  have hrun : Run machine Always (Sys.fresh 0) r.2 r.1 := run_after _
  have hsizes : reportSizes 0 r.2 = [0, 0, 16] := by decide +kernel
  have hgrown : (r.1.pros 0).epoller.maxEvents = 32 := by decide +kernel
  exact ⟨_, _, hrun, hgrown, hsizes, hsizes ▸ event_array_least ⟨0, rfl⟩ hrun 0⟩

end Copnet
