import Copnet.Foundation.Transition
import Mathlib.Data.Int.Notation
import Mathlib.Data.List.Count
import Mathlib.Data.Nat.Notation
import Mathlib.Logic.Function.Basic

/-!
# Choosing a processor

`ProcessorSelector::next` picks the processor for a new coroutine. Processor 0 is meant to be left
out: a round-robin call increments `curPro_`, and sets it back to 1 when it has run past the last
processor.

`Scheduler::createNewCo` takes no lock, so calls of different threads interleave, and `curPro_` is
read once more after the comparison. The machine here is the threads inside of `next`, one access to
`curPro_` a step. A call reads in range unless it is overtaken: another call carries `curPro_` past
the last processor after the first one has compared it, or set it back, and before it reads.
-/

open Transition

namespace Copnet

/-- `MIN_EVENT_FIRST`; any other strategy is round robin. -/
def MIN_EVENT_FIRST : ℤ := 0

def ROUND_ROBIN : ℤ := 1

/-- `ProcessorSelector`, less the processors it refers to. -/
structure ProcessorSelector where
  /-- `curPro_`. -/
  curPro : ℤ
  /-- `strategy_`. -/
  strategy : ℤ
deriving DecidableEq

namespace ProcessorSelector

/-- `ProcessorSelector::ProcessorSelector`. -/
def created (strategy : ℤ) : ProcessorSelector := ⟨-1, strategy⟩

/-- The loop of `MIN_EVENT_FIRST` from processor `i` on, given the coroutine counts from there on.
-/
def leastLoop : List ℕ → ℕ → ℕ → ℕ → ℕ
  | [], _, minCoProIdx, _ => minCoProIdx
  | coCnt :: coCnts, i, minCoProIdx, minCoCnt =>
    if coCnt < minCoCnt then leastLoop coCnts (i + 1) i coCnt
    else leastLoop coCnts (i + 1) minCoProIdx minCoCnt

/-- `ProcessorSelector::next`, given the coroutine counts of fewer than 2³¹ processors, so that
`int n` is how many there are: the selector after it and the index that `processors_` is read at, if
there are processors. -/
def next (sel : ProcessorSelector) : List ℕ → ProcessorSelector × Option ℤ
  | [] => (sel, none)
  | front :: coCnts =>
    if sel.strategy = MIN_EVENT_FIRST then
      let curPro : ℤ := leastLoop coCnts 1 1 front
      ({ sel with curPro }, some curPro)
    else
      let n : ℤ := coCnts.length + 1
      let curPro := if sel.curPro + 1 ≥ n then 1 else sel.curPro + 1
      ({ sel with curPro }, some curPro)

end ProcessorSelector

/-! ## Calls that interleave -/

/-- Where a thread is in a round-robin call of `next`. -/
inductive NextPc
  /-- In no call. -/
  | out
  /-- It has read `processors_.front()`, and is before `++curPro_`. -/
  | entered
  /-- Before `curPro_ >= n`. -/
  | incremented
  /-- Before `curPro_ = 1`. -/
  | wraps
  /-- Before `processors_[curPro_]`. -/
  | ready
deriving DecidableEq

/-- What a step of `next` does. -/
inductive PickEvent
  /-- `processors_.front()`. -/
  | front
  /-- `++curPro_`. -/
  | increment
  /-- `curPro_ >= n`. -/
  | compare
  /-- `curPro_ = 1`. -/
  | reset
  /-- `processors_[i]`, where `i` is what `curPro_` holds. -/
  | read (i : ℤ)
deriving DecidableEq

/-- The index that `processors_` is read at. -/
def PickEvent.index? : PickEvent → Option ℤ
  | .front => some 0
  | .read i => some i
  | _ => none

/-- The selector that all threads share, and where they are. -/
structure Picking where
  /-- `curPro_`. -/
  curPro : ℤ
  /-- Where each thread is. -/
  pc : ℕ → NextPc

namespace Picking

variable (s : Picking)

/-- A new selector, and nobody has called. -/
def start : Picking := ⟨(ProcessorSelector.created ROUND_ROBIN).curPro, fun _ ↦ .out⟩

def goto (t : ℕ) (pc : NextPc) : Picking := { s with pc := Function.update s.pc t pc }

/-- The thread `t` takes its next step, with `n` processors. A thread that is in no call begins
one. -/
def step (n : ℕ) (t : ℕ) : Option (Picking × List PickEvent) :=
  match s.pc t with
  | .out => if n = 0 then some (s, []) else some (s.goto t .entered, [.front])
  | .entered =>
    some ({ s with curPro := s.curPro + 1 }.goto t .incremented, [.increment])
  | .incremented => some (s.goto t (if s.curPro ≥ n then .wraps else .ready), [.compare])
  | .wraps => some ({ s with curPro := 1 }.goto t .ready, [.reset])
  | .ready => some (s.goto t .out, [.read s.curPro])

def machine (n : ℕ) : Machine Picking ℕ PickEvent where
  init s := s = start
  step s t := s.step n t

end Picking

/-- `processors_` is read within its `n` elements. -/
def IndicesInRange (n : ℕ) (evs : List PickEvent) : Prop :=
  ∀ ev ∈ evs, ∀ i, ev.index? = some i → 0 ≤ i ∧ i < n

theorem indicesInRange_snoc {n : ℕ} {ev : PickEvent} {evs : List PickEvent} :
    IndicesInRange n (evs ++ [ev]) ↔
      IndicesInRange n evs ∧ ∀ i, ev.index? = some i → 0 ≤ i ∧ i < n := by
  simp only [IndicesInRange, List.forall_mem_append, List.forall_mem_singleton]

/-- The thread `t` is about to carry `curPro_` past the last of `n` processors, while another call
has compared it or set it back and has not yet read it. -/
def Picking.Overtakes (n : ℕ) (s : Picking) (t : ℕ) : Prop :=
  s.pc t = .entered ∧ s.curPro + 1 = n ∧ ∃ t', s.pc t' = .ready

def Picking.NoOvertaking (n : ℕ) (s : Picking) (t : ℕ) : Prop := ¬ s.Overtakes n t

/-! ## Runs -/

section Runs

variable {n t : ℕ} {s₀ s s' : Picking} {ev : PickEvent} {es evs : List PickEvent}
  {tr : List (ℕ × List PickEvent)}

/-- What one step of the thread `t` does. -/
inductive Picking.Takes (n t : ℕ) (s : Picking) : PickEvent → Picking → Prop
  | front (hpc : s.pc t = .out) : Takes n t s .front (s.goto t .entered)
  | increment (hpc : s.pc t = .entered) :
      Takes n t s .increment ({ s with curPro := s.curPro + 1 }.goto t .incremented)
  | wraps (hpc : s.pc t = .incremented) (hge : s.curPro ≥ n) :
      Takes n t s .compare (s.goto t .wraps)
  | stays (hpc : s.pc t = .incremented) (hlt : ¬ s.curPro ≥ n) :
      Takes n t s .compare (s.goto t .ready)
  | reset (hpc : s.pc t = .wraps) : Takes n t s .reset ({ s with curPro := 1 }.goto t .ready)
  | read (hpc : s.pc t = .ready) : Takes n t s (.read s.curPro) (s.goto t .out)

theorem Picking.takes_of_step (hn : n ≠ 0) (hs : s.step n t = some (s', es)) :
    ∃ ev, es = [ev] ∧ Picking.Takes n t s ev s' := by
  rw [Picking.step.eq_def] at hs
  cases hpc : s.pc t with
  | out =>
    simp only [hpc, if_neg hn, Option.some.injEq, Prod.mk.injEq] at hs
    obtain ⟨rfl, rfl⟩ := hs
    exact ⟨_, rfl, .front hpc⟩
  | entered =>
    simp only [hpc, Option.some.injEq, Prod.mk.injEq] at hs
    obtain ⟨rfl, rfl⟩ := hs
    exact ⟨_, rfl, .increment hpc⟩
  | incremented =>
    simp only [hpc, Option.some.injEq, Prod.mk.injEq] at hs
    obtain ⟨rfl, rfl⟩ := hs
    by_cases hge : s.curPro ≥ n
    · rw [if_pos hge]
      exact ⟨_, rfl, .wraps hpc hge⟩
    · rw [if_neg hge]
      exact ⟨_, rfl, .stays hpc hge⟩
  | wraps =>
    simp only [hpc, Option.some.injEq, Prod.mk.injEq] at hs
    obtain ⟨rfl, rfl⟩ := hs
    exact ⟨_, rfl, .reset hpc⟩
  | ready =>
    simp only [hpc, Option.some.injEq, Prod.mk.injEq] at hs
    obtain ⟨rfl, rfl⟩ := hs
    exact ⟨_, rfl, .read hpc⟩

theorem Picking.Takes.step_eq (hn : n ≠ 0) (h : Picking.Takes n t s ev s') :
    s.step n t = some (s', [ev]) := by
  rw [Picking.step.eq_def]
  cases h with
  | front hpc => simp only [hpc, if_neg hn]
  | increment hpc => simp only [hpc]
  | wraps hpc hge => simp only [hpc, if_pos hge]
  | stays hpc hlt => simp only [hpc, if_neg hlt]
  | reset hpc => simp only [hpc]
  | read hpc => simp only [hpc]

/-- The trace of a thread that nobody interferes with. -/
def alone (t : ℕ) (evs : List PickEvent) : List (ℕ × List PickEvent) := evs.map fun ev ↦ (t, [ev])

theorem Picking.Takes.snoc (hn : n ≠ 0) (hr : Run (Picking.machine n) Always s₀ (alone t evs) s)
    (h : Picking.Takes n t s ev s') :
    Run (Picking.machine n) Always s₀ (alone t (evs ++ [ev])) s' := by
  rw [alone, List.map_append]
  exact .snoc hr trivial (h.step_eq hn)

/-- A call that nobody interferes with does as `ProcessorSelector::next` does. -/
theorem exists_run_next (sel : ProcessorSelector) (hstrategy : sel.strategy ≠ MIN_EVENT_FIRST)
    (hcur : sel.curPro = s.curPro) (front : ℕ) (coCnts : List ℕ) (hpc : s.pc t = .out) :
    ∃ evs s', Run (Picking.machine (coCnts.length + 1)) Always s (alone t evs) s' ∧
      s'.curPro = (sel.next (front :: coCnts)).1.curPro ∧ s'.pc t = .out ∧
      evs.getLast? = (sel.next (front :: coCnts)).2.map .read := by
  have hself (u : Picking) (pc : NextPc) : (u.goto t pc).pc t = pc := Function.update_self ..
  have hn : coCnts.length + 1 ≠ 0 := Nat.succ_ne_zero _
  have hbegin : Run (Picking.machine (coCnts.length + 1)) Always s (alone t []) s := .nil
  have hentered := Picking.Takes.snoc hn hbegin (.front hpc)
  have hinc := Picking.Takes.snoc hn hentered (.increment (hself _ _))
  rw [ProcessorSelector.next, if_neg hstrategy, hcur]
  by_cases hge : s.curPro + 1 ≥ (coCnts.length + 1 : ℕ)
  · have hwraps := Picking.Takes.snoc hn hinc (.wraps (hself _ _) hge)
    have hreset := Picking.Takes.snoc hn hwraps (.reset (hself _ _))
    refine ⟨_, _, Picking.Takes.snoc hn hreset (.read (hself _ _)), ?_, hself _ _, ?_⟩
    · exact (if_pos hge).symm
    · exact congrArg (fun i : ℤ ↦ some (PickEvent.read i)) (if_pos hge).symm
  · have hstays := Picking.Takes.snoc hn hinc (.stays (hself _ _) hge)
    refine ⟨_, _, Picking.Takes.snoc hn hstays (.read (hself _ _)), ?_, hself _ _, ?_⟩
    · exact (if_neg hge).symm
    · exact congrArg (fun i : ℤ ↦ some (PickEvent.read i)) (if_neg hge).symm

/-- A call that has incremented `curPro_` is under way. -/
def NextPc.Counted (pc : NextPc) : Prop := pc ≠ .out ∧ pc ≠ .entered

instance (pc : NextPc) : Decidable pc.Counted := inferInstanceAs (Decidable (_ ∧ _))

/-- What holds of the shared selector while no call is overtaken. -/
structure Ranging (n : ℕ) (s : Picking) : Prop where
  least : -1 ≤ s.curPro
  /-- It is an index once somebody has incremented it. -/
  nonneg : ∀ t, (s.pc t).Counted → 0 ≤ s.curPro
  /-- It is one of a processor while somebody is about to read it. -/
  lt : ∀ t, s.pc t = .ready → s.curPro < n

theorem ranging_start : Ranging n .start where
  least := Int.le_refl _
  nonneg _ h := absurd rfl h.1
  lt _ h := absurd h (by simp [Picking.start])

theorem Ranging.goto (h : Ranging n s) {pc : NextPc} (hpc : pc.Counted → (s.pc t).Counted)
    (hready : pc = .ready → s.curPro < n) : Ranging n (s.goto t pc) := by
  refine ⟨h.least, ?_, ?_⟩
  · apply (Function.forall_update_iff s.pc fun _ pc' ↦ pc'.Counted → 0 ≤ s.curPro).mpr
    exact ⟨fun hcounted ↦ h.nonneg t (hpc hcounted), fun t' _ ↦ h.nonneg t'⟩
  · apply (Function.forall_update_iff s.pc fun _ pc' ↦ pc' = .ready → s.curPro < n).mpr
    exact ⟨hready, fun t' _ ↦ h.lt t'⟩

theorem Ranging.step (h : Ranging n s) (hn : 2 ≤ n) (hno : s.NoOvertaking n t)
    (hs : Picking.Takes n t s ev s') : Ranging n s' := by
  have hleast := h.least
  cases hs with
  | front hpc => exact h.goto (fun hc ↦ absurd rfl hc.2) (by simp)
  | increment hpc =>
    have hready : ∀ t', s.pc t' = .ready → s.curPro + 1 < n := by
      intro t' ht'
      have hlt := h.lt t' ht'
      have hne : s.curPro + 1 ≠ n := fun heq ↦ hno ⟨hpc, heq, t', ht'⟩
      omega
    refine ⟨show -1 ≤ s.curPro + 1 by omega, fun _ _ ↦ show 0 ≤ s.curPro + 1 by omega, ?_⟩
    apply (Function.forall_update_iff s.pc fun _ pc' ↦ pc' = .ready → s.curPro + 1 < n).mpr
    exact ⟨by simp, fun t' _ ↦ hready t'⟩
  | wraps hpc hge => exact h.goto (by rw [hpc]; decide) (by simp)
  | stays hpc hlt => exact h.goto (by rw [hpc]; decide) fun _ ↦ Int.not_le.mp hlt
  | reset hpc =>
    exact ⟨show -1 ≤ (1 : ℤ) by decide, fun _ _ ↦ show 0 ≤ (1 : ℤ) by decide,
      fun _ _ ↦ show (1 : ℤ) < n by omega⟩
  | read hpc => exact h.goto (fun hc ↦ absurd rfl hc.1) (by simp)

theorem Ranging.inRange (h : Ranging n s) (hn : 2 ≤ n) (hs : Picking.Takes n t s ev s') {i : ℤ}
    (hi : ev.index? = some i) : 0 ≤ i ∧ i < n := by
  cases hs with
  | front hpc =>
    obtain rfl : 0 = i := Option.some.inj hi
    omega
  | read hpc =>
    obtain rfl : s.curPro = i := Option.some.inj hi
    exact ⟨h.nonneg t (by rw [hpc]; decide), h.lt t hpc⟩
  | _ => simp [PickEvent.index?] at hi

/-- **When placement stays in range.** For two processors and more and every interleaving of calls
in which no call is overtaken, `processors_` is read at indices between 0 and `n - 1`. -/
theorem placement_in_range (hn : 2 ≤ n) (h₀ : (Picking.machine n).init s₀)
    (h : Run (Picking.machine n) (Picking.NoOvertaking n) s₀ tr s) :
    IndicesInRange n (events tr) := by
  refine (h.history (P := fun tr s ↦ Ranging n s ∧ IndicesInRange n (events tr)) ?_ ?_).2
  · obtain rfl : s₀ = .start := h₀
    exact ⟨ranging_start, fun ev hev ↦ absurd hev List.not_mem_nil⟩
  · intro tr s s' t es _ ⟨hranging, hrange⟩ hno hst
    obtain ⟨ev, rfl, htakes⟩ := Picking.takes_of_step (by omega) hst
    rw [events_append, events_singleton, indicesInRange_snoc]
    exact ⟨hranging.step hn hno htakes, hrange, fun i hi ↦ hranging.inRange hn htakes hi⟩

/-- A call that is overtaken and takes the next step reads past the end. -/
theorem Picking.Overtakes.reads (h : s.Overtakes n t) (hs : Picking.Takes n t s ev s') :
    ∃ t' s'', Picking.Takes n t' s' (.read n) s'' := by
  obtain ⟨hpc, hcur, t', ht'⟩ := h
  cases hs with
  | increment _ =>
    have hne : t' ≠ t := by
      rintro rfl
      simp [hpc] at ht'
    have hready : ({ s with curPro := s.curPro + 1 }.goto t .incremented).pc t' = .ready :=
      (Function.update_of_ne hne ..).trans ht'
    refine ⟨t', ({ s with curPro := s.curPro + 1 }.goto t .incremented).goto t' .out, ?_⟩
    rw [← hcur]
    exact .read hready
  | _ => simp_all

/-- Three processors and two threads: one call increments `curPro_` while the other is about to
read it, but not past the last processor. -/
theorem placement_in_range_two_threads :
    ∃ tr s, Run (Picking.machine 3) (Picking.NoOvertaking 3) .start tr s ∧
      .read 1 ∈ events tr ∧ IndicesInRange 3 (events tr) := by
  have h := run_after (M := Picking.machine 3) (C := fun s _ ↦ s.curPro + 1 ≠ 3) (s := .start)
    [0, 0, 0, 1, 1, 0, 1, 1]
  have hno : Run (Picking.machine 3) (Picking.NoOvertaking 3) .start _ _ :=
    h.mono fun _ _ hc hovertakes ↦ hc hovertakes.2.1
  exact ⟨_, _, hno, by decide, placement_in_range (by decide) rfl hno⟩

/-- Two processors and two threads: one is about to read when the other increments. -/
theorem placement_out_of_range :
    ¬ ∀ (n : ℕ) (s₀ s : Picking) (tr : List (ℕ × List PickEvent)), 2 ≤ n →
      (Picking.machine n).init s₀ → Run (Picking.machine n) Always s₀ tr s →
      IndicesInRange n (events tr) := by
  intro h
  have hrun := run_after (M := Picking.machine 2) (C := Always) (s := .start)
    [0, 0, 0, 0, 0, 0, 0, 1, 1, 0]
  have hread : .read 2 ∈ events ((Picking.machine 2).after Always .start
      [0, 0, 0, 0, 0, 0, 0, 1, 1, 0]).2 := by decide
  have hrange := (h 2 _ _ _ (by decide) rfl hrun _ hread 2 rfl).2
  exact absurd hrange (by decide)

end Runs

end Copnet
