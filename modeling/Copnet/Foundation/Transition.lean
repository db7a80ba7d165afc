import Mathlib.Data.List.Basic
import Mathlib.Data.List.Flatten

/-!
# Machines, guarded runs and their histories

A machine is deterministic: whatever its environment chooses is part of the action. A step either
is not enabled or yields a next state together with the events it emits, and a run records both, so
that a statement about a whole run can speak of what happened in it as well as of where it ended.

Runs carry a guard on the state before each step and the action taken there. Every run is a run
under the trivial guard; a law that needs its callers to keep to a discipline is a law about the
runs under that guard.

## The rules

`Run.invariant` packages the induction for a state predicate, and `Run.queue_conservation` the one
for a first-in-first-out container: if each single step only appends to the container what it
reports as inserted and only takes from its front what it reports as removed, then over a whole run
nothing is lost, duplicated or reordered. `Execution.eventually` is for runs that go on forever:
what cannot be put off by more than a number of steps of some kind happens, if such steps keep
coming.
-/

namespace Transition

variable {σ α ε β : Type*}

/-- A machine with states `σ`, actions `α` and events `ε`. -/
structure Machine (σ α ε : Type*) where
  /-- The states a run may start from. -/
  init : σ → Prop
  /-- One step: `none` when the action is not enabled. -/
  step : σ → α → Option (σ × List ε)

/-- The runs of a machine all of whose steps meet the guard `C`, with their trace. -/
inductive Run (M : Machine σ α ε) (C : σ → α → Prop) (s : σ) : List (α × List ε) → σ → Prop
  | nil : Run M C s [] s
  | snoc {tr : List (α × List ε)} {t u : σ} {a : α} {es : List ε} :
      Run M C s tr t → C t a → M.step t a = some (u, es) → Run M C s (tr ++ [(a, es)]) u

def events (tr : List (α × List ε)) : List ε := tr.flatMap Prod.snd

@[simp] theorem events_nil : events ([] : List (α × List ε)) = [] := rfl

@[simp] theorem events_append (tr tr' : List (α × List ε)) :
    events (tr ++ tr') = events tr ++ events tr' := List.flatMap_append

@[simp] theorem events_singleton (a : α) (es : List ε) : events [(a, es)] = es := by
  simp [events]

/-- Every event of a history is as `P` has it, given what came before it. -/
def Along (P : List ε → ε → Prop) (evs : List ε) : Prop :=
  ∀ k ev, evs[k]? = some ev → P (evs.take k) ev

theorem along_nil {P : List ε → ε → Prop} : Along P [] := by
  intro k ev hk
  simp at hk

theorem along_snoc {P : List ε → ε → Prop} {evs : List ε} {ev : ε} :
    Along P (evs ++ [ev]) ↔ Along P evs ∧ P evs ev := by
  constructor
  · intro h
    constructor
    · intro k ev' hk
      have hlt : k < evs.length := (List.getElem?_eq_some_iff.mp hk).1
      have hpast := h k ev' (by rw [List.getElem?_append_left hlt, hk])
      rwa [List.take_append_of_le_length (Nat.le_of_lt hlt)] at hpast
    · have hlast := h evs.length ev (by rw [List.getElem?_concat_length])
      rwa [List.take_left' rfl] at hlast
  · rintro ⟨hold, hnew⟩ k ev' hk
    rcases Nat.lt_trichotomy k evs.length with hlt | rfl | hgt
    · rw [List.getElem?_append_left hlt] at hk
      rw [List.take_append_of_le_length (Nat.le_of_lt hlt)]
      exact hold k ev' hk
    · rw [List.getElem?_concat_length, Option.some_inj] at hk
      rw [List.take_left' rfl, ← hk]
      exact hnew
    · rw [List.getElem?_eq_none (by rw [List.length_append]; exact hgt)] at hk
      exact absurd hk (by simp)

/-- A reading of events that ignores what a filter removes. -/
theorem flatMap_filter {p : ε → Bool} {f : ε → List β} (hf : ∀ ev, p ev = false → f ev = [])
    (evs : List ε) : (evs.filter p).flatMap f = evs.flatMap f := by
  induction evs with
  | nil => rfl
  | cons ev evs ih =>
    cases hev : p ev with
    | false => rw [List.filter_cons_of_neg (by simp [hev]), List.flatMap_cons, hf ev hev, ih,
        List.nil_append]
    | true => rw [List.filter_cons_of_pos hev, List.flatMap_cons, List.flatMap_cons, ih]

/-- The states some guarded run leads to from an initial state. -/
def Reachable (M : Machine σ α ε) (C : σ → α → Prop) (s : σ) : Prop :=
  ∃ s₀ tr, M.init s₀ ∧ Run M C s₀ tr s

/-- The guard that excludes nothing. -/
def Always : σ → α → Prop := fun _ _ ↦ True

instance (s : σ) (a : α) : Decidable (Always s a) := isTrue trivial

variable {M : Machine σ α ε} {C : σ → α → Prop} {s t u : σ} {tr tr' : List (α × List ε)}

namespace Run

theorem trans (h : Run M C s tr t) (h' : Run M C t tr' u) : Run M C s (tr ++ tr') u := by
  induction h' with
  | nil => simpa using h
  | snoc _ hc hs ih =>
    rw [← List.append_assoc]
    exact .snoc ih hc hs

theorem eq_of_nil (h : Run M C s tr t) (htr : tr = []) : t = s := by
  cases h with
  | nil => rfl
  | snoc => simp at htr

theorem step_eq {a : α} {es : List ε} (h : Run M C s [(a, es)] t) :
    C s a ∧ M.step s a = some (t, es) := by
  generalize htr : [(a, es)] = tr at h
  cases h with
  | nil => simp at htr
  | @snoc tr u _ b es' hr hc hst =>
    have htr' : [] ++ [(a, es)] = tr ++ [(b, es')] := htr
    obtain ⟨rfl, ⟨⟩⟩ : [] = tr ∧ (a, es) = (b, es') := by simpa using List.append_inj' htr' rfl
    obtain rfl := hr.eq_of_nil rfl
    exact ⟨hc, hst⟩

theorem mono {C' : σ → α → Prop} (h : Run M C s tr t) (hC : ∀ s a, C s a → C' s a) :
    Run M C' s tr t := by
  induction h with
  | nil => exact .nil
  | snoc _ hc hs ih => exact .snoc ih (hC _ _ hc) hs

/-- **The invariant rule.** What every guarded step preserves, a guarded run preserves. -/
theorem invariant {P : σ → Prop} (h : Run M C s tr t) (hs : P s)
    (hstep : ∀ {t u a es}, P t → C t a → M.step t a = some (u, es) → P u) : P t := by
  induction h with
  | nil => exact hs
  | snoc _ hc hst ih => exact hstep ih hc hst

/-- The invariant rule for a predicate that also speaks of the trace so far. -/
theorem history {P : List (α × List ε) → σ → Prop} (h : Run M C s tr t) (hs : P [] s)
    (hstep : ∀ {tr t u a es}, Run M C s tr t → P tr t → C t a → M.step t a = some (u, es) →
      P (tr ++ [(a, es)]) u) : P tr t := by
  induction h with
  | nil => exact hs
  | snoc hr hc hst ih => exact hstep hr ih hc hst

/-- **Queue conservation.** Let `q` read a container off the state, and let each step from a state
meeting the invariant `I` append what it reports as inserted and take from the front what it
reports as removed. Over a run, the initial contents followed by everything inserted are everything
removed followed by the final contents. -/
theorem queue_conservation {I : σ → Prop} (q : σ → List β) (ins outs : ε → List β)
    (h : Run M C s tr t) (hs : I s)
    (hI : ∀ {t u a es}, I t → C t a → M.step t a = some (u, es) → I u)
    (hq : ∀ {t u a es}, I t → C t a → M.step t a = some (u, es) →
      q t ++ es.flatMap ins = es.flatMap outs ++ q u) :
    q s ++ (events tr).flatMap ins = (events tr).flatMap outs ++ q t := by
  induction h with
  | nil => simp
  | snoc hr hc hst ih =>
    have hstep := hq (hr.invariant hs hI) hc hst
    rw [events_append, events_singleton, List.flatMap_append, List.flatMap_append,
      ← List.append_assoc, ih, List.append_assoc, hstep, List.append_assoc]

end Run

namespace Reachable

theorem of_init (h : M.init s) : Reachable M C s := ⟨s, [], h, .nil⟩

theorem step {a : α} {es : List ε} (h : Reachable M C s) (hc : C s a)
    (hs : M.step s a = some (t, es)) : Reachable M C t := by
  obtain ⟨s₀, tr, hi, hr⟩ := h
  exact ⟨s₀, _, hi, hr.snoc hc hs⟩

theorem invariant {P : σ → Prop} (h : Reachable M C s) (hinit : ∀ {s}, M.init s → P s)
    (hstep : ∀ {t u a es}, P t → C t a → M.step t a = some (u, es) → P u) : P s := by
  obtain ⟨s₀, tr, hi, hr⟩ := h
  exact hr.invariant (hinit hi) hstep

end Reachable

/-! ## Going on forever -/

/-- A guarded run that goes on forever. -/
structure Execution (M : Machine σ α ε) (C : σ → α → Prop) where
  /-- The state before step `n`. -/
  state : ℕ → σ
  /-- The action of step `n`. -/
  action : ℕ → α
  /-- The events of step `n`. -/
  out : ℕ → List ε
  guarded : ∀ n, C (state n) (action n)
  step : ∀ n, M.step (state n) (action n) = some (state (n + 1), out n)

namespace Execution

variable (x : Execution M C)

/-- The trace of the first `n` steps. -/
def upTo (n : ℕ) : List (α × List ε) := (List.range n).map fun k ↦ (x.action k, x.out k)

theorem upTo_succ (n : ℕ) : x.upTo (n + 1) = x.upTo n ++ [(x.action n, x.out n)] := by
  simp [upTo, List.range_succ]

theorem run (n : ℕ) : Run M C (x.state 0) (x.upTo n) (x.state n) := by
  induction n with
  | zero => exact .nil
  | succ n ih =>
    rw [x.upTo_succ]
    exact ih.snoc (x.guarded n) (x.step n)

/-- The trace of the `k` steps from step `n` on. -/
def between (n k : ℕ) : List (α × List ε) :=
  (List.range k).map fun i ↦ (x.action (n + i), x.out (n + i))

theorem between_succ (n k : ℕ) :
    x.between n (k + 1) = x.between n k ++ [(x.action (n + k), x.out (n + k))] := by
  simp [between, List.range_succ]

theorem run_between (n k : ℕ) : Run M C (x.state n) (x.between n k) (x.state (n + k)) := by
  induction k with
  | zero => exact .nil
  | succ k ih =>
    rw [x.between_succ]
    exact ih.snoc (x.guarded _) (x.step _)

theorem upTo_add (n k : ℕ) : x.upTo (n + k) = x.upTo n ++ x.between n k := by
  induction k with
  | zero => exact (List.append_nil _).symm
  | succ k ih => rw [← Nat.add_assoc, x.upTo_succ, ih, x.between_succ, List.append_assoc]

theorem mem_events_between {n k : ℕ} {ev : ε} :
    ev ∈ events (x.between n k) ↔ ∃ i, i < k ∧ ev ∈ x.out (n + i) := by
  simp [events, between, List.mem_flatMap]

/-- Steps of a kind that comes again and again exceed every number. -/
theorem lt_countP_upTo {q : α → Bool} (hq : ∀ n, ∃ m, n ≤ m ∧ q (x.action m)) (B : ℕ) :
    ∃ n, B < (x.upTo n).countP fun st ↦ q st.1 := by
  induction B with
  | zero =>
    obtain ⟨m, -, hm⟩ := hq 0
    refine ⟨m + 1, ?_⟩
    simp [x.upTo_succ, hm]
  | succ B ih =>
    obtain ⟨n, hn⟩ := ih
    obtain ⟨m, hle, hm⟩ := hq n
    refine ⟨m + 1, ?_⟩
    have hsub : (x.upTo n).Sublist (x.upTo m) := (List.range_sublist.mpr hle).map _
    have hmono : (x.upTo n).countP (fun st ↦ q st.1) ≤ (x.upTo m).countP fun st ↦ q st.1 :=
      hsub.countP_le
    rw [x.upTo_succ, List.countP_append, List.countP_singleton, if_pos hm]
    omega

/-- **Eventually.** If the steps of a kind that comes again and again stay bounded for as long as
`ev` has not occurred, then `ev` occurs. -/
theorem eventually {q : α → Bool} (hq : ∀ n, ∃ m, n ≤ m ∧ q (x.action m)) {ev : ε} {B : ℕ}
    (hB : ∀ n, ev ∉ events (x.upTo n) → ((x.upTo n).countP fun st ↦ q st.1) ≤ B) :
    ∃ n, ev ∈ x.out n := by
  obtain ⟨n, hn⟩ := x.lt_countP_upTo hq B
  have hmem : ev ∈ events (x.upTo n) := by
    by_contra hno
    have := hB n hno
    omega
  obtain ⟨st, hst, hev⟩ := List.mem_flatMap.mp hmem
  obtain ⟨k, -, rfl⟩ := List.mem_map.mp hst
  exact ⟨k, hev⟩

theorem exists_first {P : ε → Prop} {n m : ℕ} (hnm : n ≤ m) (hm : ∃ ev ∈ x.out m, P ev) :
    ∃ k, n ≤ k ∧ (∃ ev ∈ x.out k, P ev) ∧ ∀ i, n ≤ i → i < k → ∀ ev ∈ x.out i, ¬P ev := by
  induction m using Nat.strongRecOn with
  | ind m ih =>
    by_cases hbefore : ∃ i, n ≤ i ∧ i < m ∧ ∃ ev ∈ x.out i, P ev
    · obtain ⟨i, hni, him, hi⟩ := hbefore
      exact ih i him hni hi
    · exact ⟨m, hnm, hm, fun i hni him ev hev hP ↦ hbefore ⟨i, hni, him, ev, hev, hP⟩⟩

/-! ### Making one -/

/-- Take one step first. -/
def cons {s : σ} {a : α} {es : List ε} (hc : C s a) (h : M.step s a = some (x.state 0, es)) :
    Execution M C where
  state
    | 0 => s
    | n + 1 => x.state n
  action
    | 0 => a
    | n + 1 => x.action n
  out
    | 0 => es
    | n + 1 => x.out n
  guarded
    | 0 => hc
    | n + 1 => x.guarded n
  step
    | 0 => h
    | n + 1 => x.step n

/-- A run goes on as an execution does that starts where it ends. -/
theorem exists_prepend {s t : σ} {tr : List (α × List ε)} (h : Run M C s tr t)
    (y : Execution M C) (hy : y.state 0 = t) : ∃ z : Execution M C, z.state 0 = s ∧
      z.between 0 tr.length = tr ∧ ∀ n, z.state (tr.length + n) = y.state n ∧
        z.action (tr.length + n) = y.action n := by
  induction h generalizing y with
  | nil => exact ⟨y, hy, rfl, fun n ↦ by simp⟩
  | @snoc tr t u a es _ hc hst ih =>
    subst hy
    obtain ⟨z, hz, htr, hlater⟩ := ih (y.cons hc hst) rfl
    have hlast : z.out tr.length = es := by
      have hstep := z.step tr.length
      have h₀ := hlater 0
      have h₁ := (hlater 1).1
      simp only [Nat.add_zero] at h₀
      rw [h₀.1, h₀.2, h₁] at hstep
      have hsame : M.step t a = some (y.state 0, z.out tr.length) := hstep
      rw [hst] at hsame
      simpa using hsame.symm
    refine ⟨z, hz, ?_, fun n ↦ ?_⟩
    · have haction : z.action tr.length = a := (hlater 0).2
      rw [List.length_append, List.length_singleton, between_succ, htr, Nat.zero_add, hlast,
        haction]
    · have hn := hlater (n + 1)
      rw [List.length_append, List.length_singleton, Nat.add_assoc, Nat.add_comm 1 n]
      exact hn

theorem exists_through {s t u : σ} {tr tr' : List (α × List ε)} (h : Run M C s tr t)
    (h' : Run M C t tr' u) (y : Execution M C) (hy : y.state 0 = u) :
    ∃ z : Execution M C, z.state 0 = s ∧ z.state tr.length = t ∧
      (∀ i st, tr'[i]? = some st → z.action (tr.length + i) = st.1 ∧ z.out (tr.length + i) = st.2) ∧
      ∀ n, z.state (tr.length + (tr'.length + n)) = y.state n ∧
        z.action (tr.length + (tr'.length + n)) = y.action n := by
  obtain ⟨y', hy', hbetween, hlater⟩ := exists_prepend h' y hy
  obtain ⟨z, hz, -, hlater'⟩ := exists_prepend h y' hy'
  refine ⟨z, hz, (hlater' 0).1.trans hy', fun i st hst ↦ ?_, fun n ↦
    ⟨(hlater' _).1.trans (hlater n).1, (hlater' _).2.trans (hlater n).2⟩⟩
  -- the steps of the second run are those of `y'`
  have hi : i < tr'.length := (List.getElem?_eq_some_iff.mp hst).1
  rw [← hbetween, between, List.getElem?_map, List.getElem?_range hi, Option.map_some,
    Nat.zero_add] at hst
  obtain rfl := Option.some.inj hst
  have hstep := z.step (tr.length + i)
  rw [Nat.add_assoc, (hlater' i).1, (hlater' i).2, (hlater' (i + 1)).1, y'.step] at hstep
  simp only [Option.some.injEq, Prod.mk.injEq, true_and] at hstep
  exact ⟨(hlater' i).2, hstep.symm⟩

/-- The state after `n` steps as `next` has them. -/
def follow (M : Machine σ α ε) (next : σ → α) (s : σ) : ℕ → σ
  | 0 => s
  | n + 1 => ((M.step (follow M next s n) (next (follow M next s n))).map Prod.fst).getD s

/-- A way to choose the next action that can always be followed makes an execution. -/
theorem exists_follow {s : σ} {f : σ → α} {P : σ → Prop} (hs : P s)
    (hnext : ∀ t, P t → C t (f t) ∧ ∃ u es, M.step t (f t) = some (u, es) ∧ P u) :
    ∃ y : Execution M C, y.state 0 = s ∧ ∀ n, P (y.state n) ∧ y.action n = f (y.state n) := by
  have hP : ∀ n, P (follow M f s n) := by
    intro n
    induction n with
    | zero => exact hs
    | succ n ih =>
      obtain ⟨-, u, es, hstep, hu⟩ := hnext _ ih
      rwa [follow, hstep, Option.map_some, Option.getD_some]
  refine ⟨⟨follow M f s, fun n ↦ f (follow M f s n),
    fun n ↦ ((M.step (follow M f s n) (f (follow M f s n))).map Prod.snd).getD [],
    fun n ↦ (hnext _ (hP n)).1, fun n ↦ ?_⟩, rfl, fun n ↦ ⟨hP n, rfl⟩⟩
  obtain ⟨-, u, es, hstep, -⟩ := hnext _ (hP n)
  rw [follow, hstep]
  rfl

end Execution

/-! ## Running a list of actions

The executable side: a concrete run is given by its actions alone, and a decidable guard is checked
on the way. -/

section Exec

variable (M C) [∀ s a, Decidable (C s a)]

/-- Take the actions one after the other as long as each meets the guard, collecting the trace. -/
def Machine.exec : σ → List α → Option (σ × List (α × List ε))
  | s, [] => some (s, [])
  | s, a :: as =>
    if C s a then
      match M.step s a with
      | none => none
      | some (t, es) => (Machine.exec t as).map fun r ↦ (r.1, (a, es) :: r.2)
    else none

variable {M C}

theorem run_of_exec {as : List α} (h : M.exec C s as = some (t, tr)) : Run M C s tr t := by
  induction as generalizing s tr with
  | nil =>
    simp only [Machine.exec, Option.some.injEq, Prod.mk.injEq] at h
    obtain ⟨rfl, rfl⟩ := h
    exact .nil
  | cons a as ih =>
    rw [Machine.exec] at h
    split at h
    · next hc =>
      split at h
      · simp at h
      · next u es hstep =>
        obtain ⟨⟨t', tr'⟩, hrest, hpair⟩ := Option.map_eq_some_iff.mp h
        simp only [Prod.mk.injEq] at hpair
        obtain ⟨rfl, rfl⟩ := hpair
        have hone : Run M C s ([] ++ [(a, es)]) u := .snoc .nil hc hstep
        exact hone.trans (ih hrest)
    · simp at h

/-- Where a list of actions leads, and its trace; the start itself if they cannot all be taken. -/
def Machine.after (M : Machine σ α ε) (C : σ → α → Prop) [∀ s a, Decidable (C s a)] (s : σ)
    (as : List α) : σ × List (α × List ε) :=
  (M.exec C s as).getD (s, [])

theorem run_after (as : List α) : Run M C s (M.after C s as).2 (M.after C s as).1 := by
  unfold Machine.after
  cases h : M.exec C s as with
  | none => exact .nil
  | some r => exact run_of_exec h

end Exec

end Transition
