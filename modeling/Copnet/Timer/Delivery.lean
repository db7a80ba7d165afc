import Copnet.Timer.Timer
import Mathlib.Algebra.BigOperators.Group.Finset.Basic
import Mathlib.Algebra.BigOperators.Group.Finset.Piecewise
import Mathlib.Algebra.Order.Group.Multiset
import Mathlib.Data.Multiset.Sort

/-!
# What the timer delivers

The owner of a timer calls `runAt` and `getExpiredCoroutines`, in any order and with any readings of
the clock, also such that go back. An entry should come out of the first call of
`getExpiredCoroutines` after its push that reads its deadline or a later time, and of no other, and
each call should put out what it takes in the order of deadlines and addresses.

Entries with one deadline and one coroutine cannot be told apart in the heap, so the law is about
pushes: `firstDue` is the call that a push waits for, `deliveries` collects the entries of all
pushes that wait for one call, and `waiting` those that wait for none. `outputs_eq` says that each
call puts out its deliveries, sorted, whatever the heap was before; it is by induction on the calls,
along which the entries of the heap are counted as if they had just been pushed.
-/

namespace Copnet

instance : Std.Antisymm entryLE := ⟨fun _ _ hab hba ↦ toLex_inj.mp (le_antisymm hab hba)⟩

/-- A call of the timer's owner, with the readings of the clock in it. -/
inductive TimerCall
  /-- `runAt(time, pCo)`, which reads the clock to arm the descriptor. -/
  | runAt (clock : ℤ) (time : ℤ) (pCo : Addr)
  /-- `getExpiredCoroutines`, which reads the clock to pop, and again to arm the descriptor. -/
  | getExpired (clock clock' : ℤ)
deriving DecidableEq

namespace Timer

def runAt (t : Timer) (clock time : ℤ) (pCo : Addr) : Timer :=
  (t.push time pCo).rearmFor clock time

/-- `Timer::getExpiredCoroutines`: the timer, and what is appended to `expiredCoroutines`. -/
def getExpiredCoroutines (t : Timer) (clock clock' : ℤ) : Timer × List Addr :=
  (((t.popExpired clock).readTimefd).rearm clock', t.expiredCo clock)

def call (t : Timer) : TimerCall → Timer × List Addr
  | .runAt clock time pCo => (t.runAt clock time pCo, [])
  | .getExpired clock clock' => t.getExpiredCoroutines clock clock'

def after (t : Timer) (calls : List TimerCall) : Timer := calls.foldl (fun t c ↦ (t.call c).1) t

def outputs (t : Timer) : List TimerCall → List (List Addr)
  | [] => []
  | c :: cs => (t.call c).2 :: (t.call c).1.outputs cs

end Timer

/-! ## The call that a push waits for -/

/-- The call takes everything that is due at `time`. -/
def TimerCall.Due (time : ℤ) : TimerCall → Prop
  | .runAt _ _ _ => False
  | .getExpired clock _ => time ≤ Time.now clock

instance (time : ℤ) : DecidablePred (TimerCall.Due time)
  | .runAt _ _ _ => isFalse id
  | .getExpired clock _ => inferInstanceAs (Decidable (time ≤ Time.now clock))

/-- The first of the calls that takes what is due at `time`. -/
def firstDue (time : ℤ) (calls : List TimerCall) : Option ℕ := calls.findIdx? (TimerCall.Due time ·)

/-- The entries whose first due call, from where they were pushed on, is call `j`. -/
def deliveries : List TimerCall → ℕ → Multiset (ℤ × Addr)
  | [], _ | _ :: _, 0 => 0
  | .runAt _ time pCo :: cs, j + 1 =>
    (if firstDue time cs = some j then {(time, pCo)} else 0) + deliveries cs j
  | .getExpired _ _ :: cs, j + 1 => deliveries cs j

/-- The entries for which no due call has come. -/
def waiting : List TimerCall → Multiset (ℤ × Addr)
  | [] => 0
  | .runAt _ time pCo :: cs =>
    (if firstDue time cs = none then {(time, pCo)} else 0) + waiting cs
  | .getExpired _ _ :: cs => waiting cs

/-- The entries pushed. -/
def runAts : List TimerCall → Multiset (ℤ × Addr)
  | [] => 0
  | .runAt _ time pCo :: cs => {(time, pCo)} + runAts cs
  | .getExpired _ _ :: cs => runAts cs

/-- The entries of `es` whose first due call is `j`, if they are in the heap when the calls begin.
-/
def dueAt (es : Multiset (ℤ × Addr)) (calls : List TimerCall) (j : Option ℕ) :
    Multiset (ℤ × Addr) :=
  es.filter fun e ↦ firstDue e.1 calls = j

section FirstDue

variable {time clock clock' : ℤ} {pCo : Addr} {cs : List TimerCall} {es : Multiset (ℤ × Addr)}

theorem firstDue_runAt {t : ℤ} :
    firstDue time (.runAt clock t pCo :: cs) = (firstDue time cs).map (· + 1) := by
  rw [firstDue, List.findIdx?_cons]
  rfl

theorem firstDue_of_due (h : time ≤ Time.now clock) :
    firstDue time (.getExpired clock clock' :: cs) = some 0 := by
  rw [firstDue, List.findIdx?_cons]
  exact if_pos (decide_eq_true h)

theorem firstDue_of_not_due (h : Time.now clock < time) :
    firstDue time (.getExpired clock clock' :: cs) = (firstDue time cs).map (· + 1) := by
  rw [firstDue, List.findIdx?_cons]
  exact if_neg (by rw [decide_eq_true_eq]; exact not_le.mpr h)

theorem exists_of_firstDue {calls : List TimerCall} {j : ℕ} (h : firstDue time calls = some j) :
    ∃ clock clock', calls[j]? = some (.getExpired clock clock') ∧ time ≤ Time.now clock := by
  obtain ⟨hj, hdue, -⟩ := List.findIdx?_eq_some_iff_getElem.mp h
  have hget : calls[j]? = some calls[j] := List.getElem?_eq_getElem hj
  have hdue := of_decide_eq_true hdue
  cases hc : calls[j] with
  | runAt clock t pCo =>
    rw [hc] at hdue
    exact hdue.elim
  | getExpired clock clock' =>
    rw [hc] at hget hdue
    exact ⟨clock, clock', hget, hdue⟩

theorem exists_of_mem_deliveries {calls : List TimerCall} {j : ℕ} {e : ℤ × Addr}
    (he : e ∈ deliveries calls j) :
    ∃ clock clock', calls[j]? = some (.getExpired clock clock') ∧ e.1 ≤ Time.now clock := by
  induction calls generalizing j with
  | nil => exact absurd he (Multiset.notMem_zero _)
  | cons c cs ih =>
    cases j with
    | zero =>
      cases c <;> exact absurd he (Multiset.notMem_zero _)
    | succ j =>
      rw [List.getElem?_cons_succ]
      cases c with
      | runAt clock t pCo =>
        rw [deliveries, Multiset.mem_add] at he
        rcases he with he | he
        · split at he
          · next hfirst =>
            rw [Multiset.mem_singleton.mp he]
            exact exists_of_firstDue hfirst
          · exact absurd he (Multiset.notMem_zero _)
        · exact ih he
      | getExpired clock clock' => exact ih he

theorem runAts_eq (calls : List TimerCall) :
    runAts calls = waiting calls + ∑ j ∈ Finset.range calls.length, deliveries calls j := by
  induction calls with
  | nil => rfl
  | cons c cs ih =>
    have hzero : deliveries (c :: cs) 0 = 0 := by cases c <;> rfl
    rw [List.length_cons, Finset.sum_range_succ', hzero, add_zero]
    cases c with
    | getExpired clock clock' => exact ih
    | runAt clock t pCo =>
      -- the new push is delivered by its first due call, or waits
      have hone : ({(t, pCo)} : Multiset (ℤ × Addr)) =
          (if firstDue t cs = none then {(t, pCo)} else 0) +
            ∑ j ∈ Finset.range cs.length, if firstDue t cs = some j then {(t, pCo)} else 0 := by
        cases hfirst : firstDue t cs with
        | none => simp
        | some k =>
          obtain ⟨clock₁, clock₂, hk, -⟩ := exists_of_firstDue hfirst
          have hlt : k < cs.length := (List.getElem?_eq_some_iff.mp hk).1
          simp only [Option.some.injEq, reduceCtorEq, if_false, zero_add]
          rw [Finset.sum_ite_eq, if_pos (Finset.mem_range.mpr hlt)]
      have hsum : ∑ j ∈ Finset.range cs.length, deliveries (.runAt clock t pCo :: cs) (j + 1) =
          ∑ j ∈ Finset.range cs.length, (if firstDue t cs = some j then {(t, pCo)} else 0) +
            ∑ j ∈ Finset.range cs.length, deliveries cs j := by
        rw [← Finset.sum_add_distrib]
        rfl
      rw [runAts, waiting, hsum, ih]
      conv_lhs => rw [hone]
      exact add_add_add_comm _ _ _ _

theorem dueAt_runAt (es : Multiset (ℤ × Addr)) (clock t : ℤ) (pCo : Addr) (cs : List TimerCall)
    (j : Option ℕ) :
    dueAt es (.runAt clock t pCo :: cs) (j.map (· + 1)) = dueAt es cs j := by
  apply Multiset.filter_congr
  intro e he
  rw [firstDue_runAt]
  exact (Option.map_injective (add_left_injective 1)).eq_iff

theorem dueAt_getExpired_zero :
    dueAt es (.getExpired clock clock' :: cs) (some 0) =
      es.filter (·.1 ≤ Time.now clock) := by
  apply Multiset.filter_congr
  intro e he
  rcases le_or_gt e.1 (Time.now clock) with hdue | hlate
  · rw [firstDue_of_due hdue]
    exact iff_of_true rfl hdue
  · rw [firstDue_of_not_due hlate]
    refine iff_of_false ?_ (not_le.mpr hlate)
    simp

theorem dueAt_getExpired (es : Multiset (ℤ × Addr)) (clock clock' : ℤ) (cs : List TimerCall)
    (j : Option ℕ) :
    dueAt es (.getExpired clock clock' :: cs) (j.map (· + 1)) =
      dueAt (es.filter (Time.now clock < ·.1)) cs j := by
  rw [dueAt, dueAt, Multiset.filter_filter]
  apply Multiset.filter_congr
  intro e he
  rcases le_or_gt e.1 (Time.now clock) with hdue | hlate
  · rw [firstDue_of_due hdue]
    refine iff_of_false ?_ fun hboth ↦ absurd hboth.2 (not_lt.mpr hdue)
    cases j <;> simp
  · rw [firstDue_of_not_due hlate, and_iff_left hlate]
    exact (Option.map_injective (add_left_injective 1)).eq_iff

theorem dueAt_cons {e : ℤ × Addr} (j : Option ℕ) :
    dueAt (e ::ₘ es) cs j = (if firstDue e.1 cs = j then {e} else 0) + dueAt es cs j :=
  Multiset.filter_cons _

end FirstDue

/-! ## One call -/

namespace TimerHeap

variable {h : TimerHeap} {e : ℤ × Addr} {now : ℤ}

/-- The entries as a multiset, which is what the order of pushes leaves no trace in. -/
def toMultiset (h : TimerHeap) : Multiset (ℤ × Addr) := ↑h.entries

theorem entries_eq_sort (h : TimerHeap) : h.entries = h.toMultiset.sort entryLE := by
  apply List.Perm.eq_of_pairwise' (r := entryLE) h.sorted (Multiset.pairwise_sort _ _)
  rw [← Multiset.coe_eq_coe, Multiset.sort_eq]
  rfl

theorem toMultiset_push : (h.push e).toMultiset = e ::ₘ h.toMultiset :=
  Multiset.coe_eq_coe.mpr (List.perm_orderedInsert entryLE e h.entries)

end TimerHeap

theorem takeWhile_dropWhile_of_sorted {es : List (ℤ × Addr)} (hs : es.Pairwise entryLE) (now : ℤ) :
    es.takeWhile (·.1 ≤ now) = es.filter (·.1 ≤ now) ∧
      es.dropWhile (·.1 ≤ now) = es.filter (now < ·.1) := by
  induction es with
  | nil => exact ⟨rfl, rfl⟩
  | cons e es ih =>
    rw [List.pairwise_cons] at hs
    obtain ⟨hle, hrest⟩ := hs
    by_cases he : e.1 ≤ now
    · obtain ⟨htake, hdrop⟩ := ih hrest
      rw [List.takeWhile_cons_of_pos (by simpa using he),
        List.dropWhile_cons_of_pos (by simpa using he), List.filter_cons_of_pos (by simpa using he),
        List.filter_cons_of_neg (by simpa using he), htake, hdrop]
      exact ⟨rfl, rfl⟩
    -- past the first entry that is not due none is
    · have hlate : ∀ e' ∈ es, now < e'.1 := by
        intro e' he'
        have := fst_le_of_entryLE (hle e' he')
        omega
      rw [List.takeWhile_cons_of_neg (by simpa using he),
        List.dropWhile_cons_of_neg (by simpa using he), List.filter_cons_of_neg (by simpa using he),
        List.filter_cons_of_pos (by simpa using he)]
      constructor
      · symm
        rw [List.filter_eq_nil_iff]
        intro e' he'
        have := hlate e' he'
        simpa using this
      · congr 1
        symm
        rw [List.filter_eq_self]
        intro e' he'
        simpa using hlate e' he'

namespace Timer

variable {t : Timer} {clock clock' time : ℤ} {pCo : Addr}

theorem toMultiset_runAt :
    (t.runAt clock time pCo).heap.toMultiset = (time, pCo) ::ₘ t.heap.toMultiset := by
  rw [runAt, heap_rearmFor, heap_push, TimerHeap.toMultiset_push]

theorem toMultiset_getExpired :
    (t.getExpiredCoroutines clock clock').1.heap.toMultiset =
      t.heap.toMultiset.filter (Time.now clock < ·.1) := by
  have hheap : (t.getExpiredCoroutines clock clock').1.heap.entries =
      t.heap.entries.dropWhile (·.1 ≤ Time.now clock) := by
    rw [getExpiredCoroutines, heap_rearm, heap_readTimefd, heap_popExpired]
    rfl
  rw [TimerHeap.toMultiset, hheap, (takeWhile_dropWhile_of_sorted t.heap.sorted _).2,
    TimerHeap.toMultiset, Multiset.filter_coe]

theorem output_getExpired :
    (t.getExpiredCoroutines clock clock').2 =
      ((t.heap.toMultiset.filter (·.1 ≤ Time.now clock)).sort entryLE).map Prod.snd := by
  have hexpired : t.heap.expired (Time.now clock) =
      (t.heap.toMultiset.filter (·.1 ≤ Time.now clock)).sort entryLE := by
    rw [TimerHeap.expired]
    apply List.Perm.eq_of_pairwise' (r := entryLE)
      (t.heap.sorted.sublist (List.takeWhile_sublist _)) (Multiset.pairwise_sort _ _)
    rw [← Multiset.coe_eq_coe, Multiset.sort_eq, (takeWhile_dropWhile_of_sorted t.heap.sorted _).1,
      TimerHeap.toMultiset, Multiset.filter_coe]
  rw [← hexpired]
  rfl

/-! ## Sequences of calls -/

/-- **What is due at a call are its deliveries**: the entries of the pushes before it whose first
due call it is, and those in the heap to begin with for which it is the first. -/
theorem due_eq (t : Timer) (calls : List TimerCall) (j : ℕ)
    (hj : calls[j]? = some (.getExpired clock clock')) :
    (t.after (calls.take j)).heap.toMultiset.filter (·.1 ≤ Time.now clock) =
      dueAt t.heap.toMultiset calls (some j) + deliveries calls j := by
  induction calls generalizing t j with
  | nil => simp at hj
  | cons c cs ih =>
    cases j with
    | zero =>
      rw [List.getElem?_cons_zero, Option.some_inj] at hj
      subst hj
      have hnone : deliveries (.getExpired clock clock' :: cs) 0 = 0 := rfl
      rw [dueAt_getExpired_zero, hnone, add_zero]
      rfl
    | succ j =>
      rw [List.getElem?_cons_succ] at hj
      -- the entry pushed by the first call is counted as if it had been in the heap before
      have hafter : t.after ((c :: cs).take (j + 1)) = (t.call c).1.after (cs.take j) := rfl
      rw [hafter, ih _ j hj]
      cases c with
      | runAt clock₁ time pCo =>
        have hdue := dueAt_runAt t.heap.toMultiset clock₁ time pCo cs (some j)
        rw [Option.map_some] at hdue
        rw [hdue, call, toMultiset_runAt, dueAt_cons, deliveries, add_assoc, add_left_comm]
      | getExpired clock₁ clock₂ =>
        have hdue := dueAt_getExpired t.heap.toMultiset clock₁ clock₂ cs (some j)
        rw [Option.map_some] at hdue
        rw [hdue, call, toMultiset_getExpired, deliveries]

theorem after_eq (t : Timer) (calls : List TimerCall) :
    (t.after calls).heap.toMultiset = dueAt t.heap.toMultiset calls none + waiting calls := by
  induction calls generalizing t with
  | nil =>
    have hall : dueAt t.heap.toMultiset [] none = t.heap.toMultiset :=
      Multiset.filter_eq_self.mpr fun _ _ ↦ rfl
    rw [hall]
    exact (add_zero _).symm
  | cons c cs ih =>
    have hafter : t.after (c :: cs) = (t.call c).1.after cs := rfl
    rw [hafter, ih]
    cases c with
    | runAt clock₁ time pCo =>
      have hdue := dueAt_runAt t.heap.toMultiset clock₁ time pCo cs none
      rw [Option.map_none] at hdue
      rw [hdue, call, toMultiset_runAt, dueAt_cons, waiting, add_assoc, add_left_comm]
    | getExpired clock₁ clock₂ =>
      have hdue := dueAt_getExpired t.heap.toMultiset clock₁ clock₂ cs none
      rw [Option.map_none] at hdue
      rw [hdue, call, toMultiset_getExpired, waiting]

/-- A call puts out the entries of the heap that are due, and leaves later ones only. -/
theorem outputs_heap (t : Timer) (calls : List TimerCall) (j : ℕ)
    (hj : calls[j]? = some (.getExpired clock clock')) :
    (t.outputs calls)[j]? = some
        ((((t.after (calls.take j)).heap.toMultiset.filter (·.1 ≤ Time.now clock)).sort entryLE).map
          Prod.snd) ∧
      ∀ e ∈ (t.after (calls.take (j + 1))).heap.toMultiset, Time.now clock < e.1 := by
  induction calls generalizing t j with
  | nil => simp at hj
  | cons c cs ih =>
    cases j with
    | zero =>
      rw [List.getElem?_cons_zero, Option.some_inj] at hj
      subst hj
      refine ⟨?_, ?_⟩
      · rw [outputs, List.getElem?_cons_zero, call, output_getExpired]
        rfl
      · intro e he
        have hafter : t.after ((TimerCall.getExpired clock clock' :: cs).take (0 + 1)) =
            (t.getExpiredCoroutines clock clock').1 := rfl
        rw [hafter, toMultiset_getExpired, Multiset.mem_filter] at he
        exact he.2
    | succ j =>
      rw [List.getElem?_cons_succ] at hj
      exact ih (t.call c).1 j hj

end Timer

/-! ## From the empty timer -/

/-- **Delivery is exactly once, in order and never early.** For every sequence of calls on a new
timer: call `j` of `getExpiredCoroutines` puts out the coroutines of its deliveries, the entries of
the pushes before it whose first due call it is, sorted by deadline and address; these are all
entries of the heap that are due when it is called, and it leaves only later ones. The entries for
which no due call has come are in the heap, and every push is delivered once or is one of them. -/
theorem timer_delivery (calls : List TimerCall) :
    (∀ j clock clock', calls[j]? = some (.getExpired clock clock') →
      (Timer.created.outputs calls)[j]? = some
        (((deliveries calls j).sort entryLE).map Prod.snd) ∧
      deliveries calls j =
        (Timer.created.after (calls.take j)).heap.toMultiset.filter (·.1 ≤ Time.now clock) ∧
      ∀ e ∈ (Timer.created.after (calls.take (j + 1))).heap.entries, Time.now clock < e.1) ∧
    (∀ j, ∀ e ∈ deliveries calls j, ∃ clock clock',
      calls[j]? = some (.getExpired clock clock') ∧ e.1 ≤ Time.now clock) ∧
    (Timer.created.after calls).heap.entries = (waiting calls).sort entryLE ∧
    runAts calls = waiting calls + ∑ j ∈ Finset.range calls.length, deliveries calls j := by
  have hempty : ∀ j, dueAt Timer.created.heap.toMultiset calls j = 0 := fun _ ↦ rfl
  refine ⟨?_, fun _ _ he ↦ exists_of_mem_deliveries he, ?_, runAts_eq calls⟩
  · intro j clock clock' hj
    have hdue := Timer.due_eq .created calls j hj
    rw [hempty, zero_add] at hdue
    obtain ⟨hout, hlate⟩ := Timer.outputs_heap .created calls j hj
    rw [hdue] at hout
    exact ⟨hout, hdue.symm, hlate⟩
  · rw [TimerHeap.entries_eq_sort, Timer.after_eq, hempty, zero_add]

/-- Two coroutines with one deadline, one of them twice, a clock that goes back, and a later one. -/
def sleepersAndClocks : List TimerCall :=
  [.runAt 0 5 96, .runAt 0 5 64, .getExpired 4999 4999, .runAt 0 9 64, .runAt 0 5 64,
    .getExpired 6000 6000, .getExpired 2000 2000]

example : Timer.created.outputs sleepersAndClocks = [[], [], [], [], [], [64, 64, 96], []] := by
  decide

end Copnet
