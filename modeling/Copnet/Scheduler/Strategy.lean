import Copnet.Foundation.Cycle
import Copnet.Scheduler.Selector
import Mathlib.Data.Vector.Defs

/-!
# What the strategies of the selector do

Calls of `setStrategy` and `next` on one selector, made one after another. Every call of `next`
leaves a `Placement`: the strategy in force, the indices that `processors_` is read at, and the
processor that is returned.

Round robin goes round the processors from 1 on, whatever the cursor was left at. The least loaded
processor is found only if the loop of `MIN_EVENT_FIRST` starts from a count it should start from:
the running minimum is that of processor 0, which is no candidate, and the index is that of
processor 1. With a single processor the index 1 is out of range under either strategy.
-/

namespace Copnet

/-- A call on the selector of `n` processors. -/
inductive SelectorCall (n : ℕ)
  /-- `setStrategy(strategy)`. -/
  | setStrategy (strategy : ℤ)
  /-- `next()`, when the processors have these numbers of coroutines. -/
  | next (coCnts : List.Vector ℕ n)

/-- What a call of `next` does. -/
structure Placement where
  /-- The strategy in force. -/
  strategy : ℤ
  /-- The indices that `processors_` is read at. -/
  reads : List ℤ
  /-- The processor that is returned. -/
  index? : Option ℤ

namespace ProcessorSelector

/-- `ProcessorSelector::setStrategy`. -/
def setStrategy (sel : ProcessorSelector) (strategy : ℤ) : ProcessorSelector :=
  { sel with strategy }

/-- The indices that the loop of `MIN_EVENT_FIRST` reads `processors_` at from processor `i` on. -/
def leastLoopReads : List ℕ → ℕ → List ℤ
  | [], _ => []
  | _ :: coCnts, i => (i : ℤ) :: leastLoopReads coCnts (i + 1)

/-- The indices that `next` reads `processors_` at: that of `front()`, those of the loop, and that
of the processor it returns. -/
def reads (sel : ProcessorSelector) : List ℕ → List ℤ
  | [] => []
  | front :: coCnts =>
    0 :: (if sel.strategy = MIN_EVENT_FIRST then leastLoopReads coCnts 1 else []) ++
      (sel.next (front :: coCnts)).2.toList

/-- What the calls of `next` among these do, in order. -/
def placements {n : ℕ} : ProcessorSelector → List (SelectorCall n) → List Placement
  | _, [] => []
  | sel, .setStrategy strategy :: calls => (sel.setStrategy strategy).placements calls
  | sel, .next coCnts :: calls =>
    ⟨sel.strategy, sel.reads coCnts.toList, (sel.next coCnts.toList).2⟩ ::
      (sel.next coCnts.toList).1.placements calls

/-! ## The loop of `MIN_EVENT_FIRST` -/

/-- **What the loop finds**: the index it starts from if no count is below the one it starts from,
and otherwise an index at which the count is least. -/
theorem leastLoop_spec (coCnts : List ℕ) (i minCoProIdx minCoCnt : ℕ) :
    (leastLoop coCnts i minCoProIdx minCoCnt = minCoProIdx ∧ ∀ c ∈ coCnts, minCoCnt ≤ c) ∨
      ∃ k coCnt, leastLoop coCnts i minCoProIdx minCoCnt = i + k ∧ coCnts[k]? = some coCnt ∧
        coCnt < minCoCnt ∧ ∀ c ∈ coCnts, coCnt ≤ c := by
  induction coCnts generalizing i minCoProIdx minCoCnt with
  | nil => exact .inl ⟨rfl, by simp⟩
  | cons coCnt coCnts ih =>
    rw [leastLoop]
    split
    · next hlt =>
      right
      rcases ih (i + 1) i coCnt with ⟨hidx, hle⟩ | ⟨k, least, hidx, hget, hless, hle⟩
      · exact ⟨0, coCnt, hidx, rfl, hlt, by simpa using hle⟩
      · refine ⟨k + 1, least, by omega, hget, by omega, ?_⟩
        intro c hc
        rcases List.mem_cons.mp hc with rfl | hc
        · exact hless.le
        · exact hle c hc
    · next hge =>
      rcases ih (i + 1) minCoProIdx minCoCnt with ⟨hidx, hle⟩ | ⟨k, least, hidx, hget, hless, hle⟩
      · refine .inl ⟨hidx, ?_⟩
        intro c hc
        rcases List.mem_cons.mp hc with rfl | hc
        · exact not_lt.mp hge
        · exact hle c hc
      · refine .inr ⟨k + 1, least, by omega, hget, hless, ?_⟩
        intro c hc
        rcases List.mem_cons.mp hc with rfl | hc
        · omega
        · exact hle c hc

theorem leastLoop_bounds {coCnts : List ℕ} (front : ℕ) (hne : coCnts ≠ []) :
    1 ≤ leastLoop coCnts 1 1 front ∧ leastLoop coCnts 1 1 front ≤ coCnts.length := by
  have hpos : 1 ≤ coCnts.length := List.length_pos_iff.mpr hne
  rcases leastLoop_spec coCnts 1 1 front with ⟨hidx, -⟩ | ⟨k, coCnt, hidx, hget, -, -⟩
  · omega
  · have hlt : k < coCnts.length := (List.getElem?_eq_some_iff.mp hget).1
    omega

end ProcessorSelector

/-! ## The least loaded processor -/

/-- Processor `i` is one of those from 1 on, and none of these has fewer coroutines. -/
def LeastLoaded (coCnts : List ℕ) (i : ℕ) : Prop :=
  1 ≤ i ∧ ∃ coCnt, coCnts[i]? = some coCnt ∧
    ∀ j coCnt', 1 ≤ j → coCnts[j]? = some coCnt' → coCnt ≤ coCnt'

theorem leastLoaded_cons {coCnts : List ℕ} (front k : ℕ) :
    LeastLoaded (front :: coCnts) (k + 1) ↔
      ∃ coCnt, coCnts[k]? = some coCnt ∧ ∀ c ∈ coCnts, coCnt ≤ c := by
  rw [LeastLoaded, List.getElem?_cons_succ, and_iff_right (Nat.le_add_left 1 k)]
  refine exists_congr fun coCnt ↦ and_congr_right fun _ ↦ ⟨?_, ?_⟩
  · intro hle c hc
    obtain ⟨j, hj⟩ := List.mem_iff_getElem?.mp hc
    exact hle (j + 1) c (Nat.le_add_left 1 j) hj
  · intro hle j coCnt' hj hget
    obtain ⟨j, rfl⟩ := Nat.exists_eq_add_of_le' hj
    exact hle coCnt' (List.mem_of_getElem? hget)

/-- **When the least loaded processor is picked.** Under `MIN_EVENT_FIRST`, with processor 0, a
first worker and any others, `next` returns a least loaded worker exactly if some worker has fewer
coroutines than processor 0, or the first worker is a least loaded one. -/
theorem least_loaded_iff (curPro : ℤ) (front first : ℕ) (coCnts : List ℕ) :
    (∃ i : ℕ, ((⟨curPro, MIN_EVENT_FIRST⟩ : ProcessorSelector).next
        (front :: first :: coCnts)).2 = some (i : ℤ) ∧
      LeastLoaded (front :: first :: coCnts) i) ↔
      (∃ c ∈ first :: coCnts, c < front) ∨ ∀ c ∈ coCnts, first ≤ c := by
  have hnext : ((⟨curPro, MIN_EVENT_FIRST⟩ : ProcessorSelector).next
      (front :: first :: coCnts)).2 =
        some (ProcessorSelector.leastLoop (first :: coCnts) 1 1 front : ℤ) := rfl
  simp only [hnext, Option.some.injEq, Int.natCast_inj, exists_eq_left']
  rcases ProcessorSelector.leastLoop_spec (first :: coCnts) 1 1 front with
    ⟨hidx, hle⟩ | ⟨k, coCnt, hidx, hget, hlt, hle⟩
  -- no count is below that of processor 0: the answer is the first worker
  · have hnone : ¬ ∃ c ∈ first :: coCnts, c < front := by
      rintro ⟨c, hc, hlt⟩
      exact absurd (hle c hc) (not_le.mpr hlt)
    rw [hidx, or_iff_right hnone, leastLoaded_cons front 0]
    simp
  -- some count is: the answer is an index of the least one
  · have hsome : ∃ c ∈ first :: coCnts, c < front := ⟨coCnt, List.mem_of_getElem? hget, hlt⟩
    rw [hidx, Nat.add_comm 1 k, leastLoaded_cons]
    exact iff_of_true ⟨coCnt, hget, hle⟩ (.inl hsome)

/-- Processor 0 is idle, and of the two workers the second has fewer coroutines. -/
theorem busier_worker_picked :
    ((⟨-1, MIN_EVENT_FIRST⟩ : ProcessorSelector).next [0, 5, 3]).2 = some 1 ∧
      ¬ ∃ i : ℕ, ((⟨-1, MIN_EVENT_FIRST⟩ : ProcessorSelector).next [0, 5, 3]).2 = some (i : ℤ) ∧
        LeastLoaded [0, 5, 3] i := by
  refine ⟨rfl, ?_⟩
  rintro ⟨i, hi, -, coCnt, hget, hle⟩
  obtain rfl : i = 1 := by
    have hone : (1 : ℤ) = i := Option.some.inj hi
    omega
  obtain rfl : coCnt = 5 := (Option.some.inj hget).symm
  exact absurd (hle 2 3 (by decide) rfl) (by decide)

/-! ## The cursor -/

namespace ProcessorSelector

variable {n m : ℕ} {sel : ProcessorSelector} {coCnts : List ℕ}

/-- The cursor of a selector of `m + 1` processors is at one of them. -/
def AtProcessor (m : ℕ) (sel : ProcessorSelector) : Prop := 0 ≤ sel.curPro ∧ sel.curPro ≤ m

theorem next_of_minEventFirst (front : ℕ) (coCnts : List ℕ) (h : sel.strategy = MIN_EVENT_FIRST) :
    sel.next (front :: coCnts) =
      ({ sel with curPro := (leastLoop coCnts 1 1 front : ℤ) },
        some (leastLoop coCnts 1 1 front : ℤ)) :=
  if_pos h

/-- From a processor on, a round-robin call goes one place further round the workers. -/
theorem next_of_roundRobin {c : ℕ} (hm : 1 ≤ m) (hlen : coCnts.length = m + 1)
    (h : sel.strategy ≠ MIN_EVENT_FIRST) (hcur : sel.curPro = c) (hc : c ≤ m) :
    sel.next coCnts =
      ({ sel with curPro := ((c % m + 1 : ℕ) : ℤ) }, some ((c % m + 1 : ℕ) : ℤ)) := by
  obtain ⟨front, workers, rfl⟩ := List.exists_cons_of_length_eq_add_one hlen
  have hworkers : workers.length = m := by simpa using hlen
  have hplace : (if sel.curPro + 1 ≥ (workers.length : ℤ) + 1 then (1 : ℤ) else sel.curPro + 1) =
      ((c % m + 1 : ℕ) : ℤ) := by
    rcases eq_or_lt_of_le hc with rfl | hlt
    · rw [if_pos (by omega), Nat.mod_self]
      rfl
    · rw [if_neg (by omega), Nat.mod_eq_of_lt hlt]
      omega
  rw [next, if_neg h]
  dsimp only
  rw [hplace]

theorem atProcessor_next (hm : 1 ≤ m) (hlen : coCnts.length = m + 1)
    (h : -1 ≤ sel.curPro ∧ sel.curPro ≤ m) : AtProcessor m (sel.next coCnts).1 := by
  obtain ⟨front, workers, rfl⟩ := List.exists_cons_of_length_eq_add_one hlen
  have hworkers : workers.length = m := by simpa using hlen
  by_cases hmin : sel.strategy = MIN_EVENT_FIRST
  · have hne : workers ≠ [] := List.length_pos_iff.mp (by omega)
    have hbounds := leastLoop_bounds front hne
    rw [next_of_minEventFirst front workers hmin]
    constructor <;> dsimp only <;> omega
  · rw [next, if_neg hmin]
    dsimp only
    split <;> constructor <;> dsimp only <;> omega

/-- What is left of the placements of some calls are those of the calls that are left, and the
first placement leaves the cursor at a processor. -/
theorem exists_calls_of_placements {calls : List (SelectorCall (m + 1))}
    {before rest : List Placement} (hm : 1 ≤ m) (hcur : -1 ≤ sel.curPro ∧ sel.curPro ≤ m)
    (hsplit : sel.placements calls = before ++ rest) :
    ∃ (sel' : ProcessorSelector) (calls' : List (SelectorCall (m + 1))),
      rest = sel'.placements calls' ∧ (before ≠ [] → AtProcessor m sel') := by
  induction calls generalizing sel before with
  | nil =>
    obtain ⟨rfl, rfl⟩ := List.append_eq_nil_iff.mp hsplit.symm
    exact ⟨sel, [], rfl, fun hne ↦ absurd rfl hne⟩
  | cons call calls ih =>
    cases call with
    | setStrategy strategy => exact @ih (sel.setStrategy strategy) _ hcur hsplit
    | next coCnts =>
      have hat := atProcessor_next hm coCnts.toList_length hcur
      cases before with
      | nil => exact ⟨sel, _, hsplit.symm, fun hne ↦ absurd rfl hne⟩
      | cons p before =>
        have htail := (List.cons.inj hsplit).2
        cases before with
        | nil => exact ⟨_, calls, htail.symm, fun _ ↦ hat⟩
        | cons p' before =>
          obtain ⟨sel', calls', hrest, hat'⟩ := ih ⟨by have := hat.1; omega, hat.2⟩ htail
          exact ⟨sel', calls', hrest, fun _ ↦ hat' (List.cons_ne_nil _ _)⟩

/-- **Round-robin calls go round the workers**, one place further each time, from wherever the
cursor was. -/
theorem placements_eq_cycle {calls : List (SelectorCall (m + 1))} {window after : List Placement}
    {c : ℕ} (hm : 1 ≤ m) (hcur : sel.curPro = c) (hc : c ≤ m)
    (hsplit : sel.placements calls = window ++ after)
    (hrobin : ∀ p ∈ window, p.strategy ≠ MIN_EVENT_FIRST) :
    window.map (·.index?) = (cycle m c window.length).map fun i ↦ some ((i + 1 : ℕ) : ℤ) := by
  induction calls generalizing sel c window with
  | nil =>
    obtain ⟨rfl, rfl⟩ := List.append_eq_nil_iff.mp hsplit.symm
    rfl
  | cons call calls ih =>
    cases call with
    | setStrategy strategy => exact @ih (sel.setStrategy strategy) _ _ hcur hc hsplit hrobin
    | next coCnts =>
      cases window with
      | nil => rfl
      | cons p window =>
        obtain ⟨hhead, htail⟩ := List.cons.inj hsplit
        have hstrategy : sel.strategy ≠ MIN_EVENT_FIRST := by
          have := hrobin p List.mem_cons_self
          rwa [← hhead] at this
        have hnext := next_of_roundRobin hm coCnts.toList_length hstrategy hcur hc
        rw [hnext] at htail hhead
        have hlt : c % m < m := Nat.mod_lt _ hm
        have hrest := ih (c := c % m + 1) rfl hlt htail
          fun p' hp' ↦ hrobin p' (List.mem_cons_of_mem _ hp')
        have hcongr : cycle m (c % m + 1) window.length = cycle m (c + 1) window.length :=
          cycle_congr (Nat.mod_add_mod c m 1)
        rw [List.length_cons, cycle_succ, List.map_cons, List.map_cons, hrest, hcongr, ← hhead]

end ProcessorSelector

/-! ## Round robin -/

/-- **Round robin is fair.** Whatever calls of `setStrategy` and `next` have been made on a new
selector of two processors or more, once there was a call of `next`: any `n - 1` calls of `next`
that follow one another under strategies other than `MIN_EVENT_FIRST` return every worker once. Any
number of such calls never return processor 0, and return no worker more than once oftener than
another. -/
theorem round_robin_fair {n : ℕ} (hn : 2 ≤ n) (strategy : ℤ) (calls : List (SelectorCall n))
    {before window after : List Placement}
    (hsplit : (ProcessorSelector.created strategy).placements calls = before ++ window ++ after)
    (hbefore : before ≠ []) (hrobin : ∀ p ∈ window, p.strategy ≠ MIN_EVENT_FIRST) :
    (window.length = n - 1 →
      (window.map (·.index?)).Perm ((List.range (n - 1)).map fun i ↦ some ((i + 1 : ℕ) : ℤ))) ∧
    some 0 ∉ window.map (·.index?) ∧
    ∀ i j : ℕ, 1 ≤ i → i < n → 1 ≤ j → j < n →
      (window.map (·.index?)).count (some (i : ℤ)) ≤
        (window.map (·.index?)).count (some (j : ℤ)) + 1 := by
  obtain ⟨m, rfl⟩ := Nat.exists_eq_add_of_le' (Nat.le_of_succ_le hn)
  have hm : 1 ≤ m := by omega
  rw [List.append_assoc] at hsplit
  have hcreated : -1 ≤ (ProcessorSelector.created strategy).curPro ∧
      (ProcessorSelector.created strategy).curPro ≤ m := ⟨le_rfl, by
    rw [ProcessorSelector.created]
    dsimp only
    omega⟩
  obtain ⟨sel, calls', hrest, hat⟩ :=
    ProcessorSelector.exists_calls_of_placements hm hcreated hsplit
  obtain ⟨hpos, hle⟩ := hat hbefore
  obtain ⟨c, hc⟩ := Int.eq_ofNat_of_zero_le hpos
  have hcycle := ProcessorSelector.placements_eq_cycle hm hc (by omega) hrest.symm hrobin
  have hinj : Function.Injective fun i : ℕ ↦ some ((i + 1 : ℕ) : ℤ) := by
    intro i j hij
    have : ((i + 1 : ℕ) : ℤ) = (j + 1 : ℕ) := Option.some.inj hij
    omega
  rw [hcycle, Nat.add_sub_cancel]
  refine ⟨?_, ?_, ?_⟩
  · intro hlen
    rw [hlen]
    exact (cycle_perm m c).map _
  · intro hzero
    obtain ⟨i, -, hi⟩ := List.mem_map.mp hzero
    have : ((i + 1 : ℕ) : ℤ) = 0 := Option.some.inj hi
    omega
  · intro i j hi hin hj hjn
    obtain ⟨i, rfl⟩ := Nat.exists_eq_add_of_le' hi
    obtain ⟨j, rfl⟩ := Nat.exists_eq_add_of_le' hj
    have hcount := count_cycle_le (c := c) (k := window.length)
      (Nat.lt_of_succ_lt_succ hin) (Nat.lt_of_succ_lt_succ hjn)
    rwa [← List.count_map_of_injective _ _ hinj, ← List.count_map_of_injective _ _ hinj] at hcount

/-- The cursor was left at the last of three processors by `MIN_EVENT_FIRST`, and two round-robin
calls follow. -/
def afterLeastLoaded : List (SelectorCall 3) :=
  [.setStrategy MIN_EVENT_FIRST, .next ⟨[7, 4, 2], rfl⟩, .setStrategy ROUND_ROBIN,
    .next ⟨[7, 4, 3], rfl⟩, .setStrategy 5, .next ⟨[7, 5, 3], rfl⟩]

theorem round_robin_fair_after_least_loaded :
    ([some 1, some 2] : List (Option ℤ)).Perm
      ((List.range 2).map fun i ↦ some ((i + 1 : ℕ) : ℤ)) := by
  have hsplit : (ProcessorSelector.created ROUND_ROBIN).placements afterLeastLoaded =
      [⟨0, [0, 1, 2, 2], some 2⟩] ++ [⟨1, [0, 1], some 1⟩, ⟨5, [0, 2], some 2⟩] ++ [] := rfl
  exact (round_robin_fair (by decide) ROUND_ROBIN afterLeastLoaded hsplit (by decide)
    (by simp [MIN_EVENT_FIRST])).1 rfl

/-! ## The indices that are read -/

/-- The strategies in force at the calls of `next` among these, if it is `strategy` at first. -/
def strategies {n : ℕ} : ℤ → List (SelectorCall n) → List ℤ
  | _, [] => []
  | _, .setStrategy strategy :: calls => strategies strategy calls
  | strategy, .next _ :: calls => strategy :: strategies strategy calls

namespace ProcessorSelector

variable {m : ℕ} {sel : ProcessorSelector} {coCnts : List ℕ}

theorem mem_leastLoopReads {i : ℕ} {j : ℤ} (h : j ∈ leastLoopReads coCnts i) :
    (i : ℤ) ≤ j ∧ j < i + coCnts.length := by
  induction coCnts generalizing i with
  | nil => exact absurd h (List.not_mem_nil)
  | cons coCnt coCnts ih =>
    rw [List.length_cons]
    rcases List.mem_cons.mp h with rfl | h
    · constructor <;> omega
    · have := ih h
      constructor <;> omega

theorem reads_in_range (hm : 1 ≤ m) (hlen : coCnts.length = m + 1)
    (hcur : -1 ≤ sel.curPro ∧ sel.curPro ≤ m) :
    ∀ i ∈ sel.reads coCnts, 0 ≤ i ∧ i < ((m + 1 : ℕ) : ℤ) := by
  have hat := atProcessor_next hm hlen hcur
  obtain ⟨front, workers, rfl⟩ := List.exists_cons_of_length_eq_add_one hlen
  have hworkers : workers.length = m := by simpa using hlen
  have hidx : (sel.next (front :: workers)).2 = some (sel.next (front :: workers)).1.curPro := by
    rw [next]
    split <;> rfl
  intro i hi
  rw [reads, hidx, List.mem_append, List.mem_cons] at hi
  rcases hi with (rfl | hloop) | hlast
  · constructor <;> omega
  · split at hloop
    · have := mem_leastLoopReads hloop
      constructor <;> omega
    · exact absurd hloop List.not_mem_nil
  · rw [Option.toList_some, List.mem_singleton] at hlast
    have := hat.1
    have := hat.2
    constructor <;> omega

theorem placements_in_range {calls : List (SelectorCall (m + 1))} (hm : 1 ≤ m)
    (hcur : -1 ≤ sel.curPro ∧ sel.curPro ≤ m) :
    ∀ p ∈ sel.placements calls, ∀ i ∈ p.reads, 0 ≤ i ∧ i < ((m + 1 : ℕ) : ℤ) := by
  induction calls generalizing sel with
  | nil => exact fun p hp ↦ absurd hp List.not_mem_nil
  | cons call calls ih =>
    cases call with
    | setStrategy strategy => exact @ih (sel.setStrategy strategy) hcur
    | next coCnts =>
      have hat := atProcessor_next hm coCnts.toList_length hcur
      intro p hp
      rcases List.mem_cons.mp hp with rfl | hp
      · exact reads_in_range hm coCnts.toList_length hcur
      · exact ih ⟨by have := hat.1; omega, hat.2⟩ p hp

theorem placements_eq_nil {n : ℕ} {calls : List (SelectorCall n)}
    (h : strategies sel.strategy calls = []) : sel.placements calls = [] := by
  induction calls generalizing sel with
  | nil => rfl
  | cons call calls ih =>
    cases call with
    | setStrategy strategy => exact @ih (sel.setStrategy strategy) h
    | next coCnts => exact absurd h (List.cons_ne_nil _ _)

/-- A selector of one processor whose cursor has left its first value reads the index 1 at the next
call. -/
theorem exists_read_one {calls : List (SelectorCall 1)} (hcur : 0 ≤ sel.curPro)
    (hcalls : strategies sel.strategy calls ≠ []) :
    ∃ p ∈ sel.placements calls, 1 ∈ p.reads := by
  induction calls generalizing sel with
  | nil => exact absurd rfl hcalls
  | cons call calls ih =>
    cases call with
    | setStrategy strategy => exact @ih (sel.setStrategy strategy) hcur hcalls
    | next coCnts =>
      refine ⟨_, List.mem_cons_self, ?_⟩
      obtain ⟨front, hfront⟩ := List.length_eq_one_iff.mp coCnts.toList_length
      have hidx : (sel.next [front]).2 = some 1 := by
        by_cases hmin : sel.strategy = MIN_EVENT_FIRST
        · rw [next_of_minEventFirst front [] hmin]
          rfl
        · rw [next, if_neg hmin]
          exact congrArg some (if_pos (by simpa using hcur))
      rw [hfront, reads, hidx]
      exact List.mem_append_right _ List.mem_cons_self

/-- With one processor the only call in range is a single one under round robin. -/
theorem created_in_range_iff (strategy : ℤ) (calls : List (SelectorCall 1)) :
    (∀ p ∈ (created strategy).placements calls, ∀ i ∈ p.reads, 0 ≤ i ∧ i < 1) ↔
      strategies strategy calls = [] ∨
        ∃ σ, σ ≠ MIN_EVENT_FIRST ∧ strategies strategy calls = [σ] := by
  induction calls generalizing strategy with
  | nil => exact iff_of_true (fun p hp ↦ absurd hp List.not_mem_nil) (.inl rfl)
  | cons call calls ih =>
    cases call with
    | setStrategy strategy' => exact ih strategy'
    | next coCnts =>
      obtain ⟨front, hfront⟩ := List.length_eq_one_iff.mp coCnts.toList_length
      rw [placements, strategies, List.forall_mem_cons, hfront]
      by_cases hmin : strategy = MIN_EVENT_FIRST
      · have hreads : (created strategy).reads [front] = [0, 1] := by
          rw [hmin]
          rfl
        refine iff_of_false (fun h ↦ ?_) (by simp [hmin])
        have := h.1 1 (by rw [hreads]; exact List.mem_cons_of_mem _ List.mem_cons_self)
        omega
      · have hnext : (created strategy).next [front] = (⟨0, strategy⟩, some 0) := if_neg hmin
        have hreads : (created strategy).reads [front] = [0, 0] := by
          rw [reads, hnext, created, if_neg hmin]
          rfl
        rw [hreads, hnext]
        have hfirst : ∀ i ∈ ([0, 0] : List ℤ), 0 ≤ i ∧ i < 1 := by decide
        rw [and_iff_right hfirst]
        by_cases hrest : strategies strategy calls = []
        -- no further call: nothing else is read
        · refine iff_of_true ?_ (.inr ⟨strategy, hmin, by rw [hrest]⟩)
          have hnil : (⟨0, strategy⟩ : ProcessorSelector).placements calls = [] :=
            placements_eq_nil hrest
          rw [hnil]
          exact fun p hp ↦ absurd hp List.not_mem_nil
        · refine iff_of_false (fun h ↦ ?_) (by simp [hrest])
          obtain ⟨p, hp, hone⟩ : ∃ p ∈ (⟨0, strategy⟩ : ProcessorSelector).placements calls,
              1 ∈ p.reads := exists_read_one le_rfl hrest
          exact absurd (h p hp 1 hone).2 (lt_irrefl 1)

end ProcessorSelector

/-- **When the selector stays inside the vector.** Whatever calls are made on a new selector, one
after another: every index that `next` reads is that of a processor exactly if there are two
processors or more, or `next` is called at most once, and not under `MIN_EVENT_FIRST`. -/
theorem reads_in_range_iff {n : ℕ} (hn : 1 ≤ n) (strategy : ℤ) (calls : List (SelectorCall n)) :
    (∀ p ∈ (ProcessorSelector.created strategy).placements calls,
      ∀ i ∈ p.reads, 0 ≤ i ∧ i < (n : ℤ)) ↔
    2 ≤ n ∨ strategies strategy calls = [] ∨
      ∃ σ, σ ≠ MIN_EVENT_FIRST ∧ strategies strategy calls = [σ] := by
  obtain ⟨m, rfl⟩ := Nat.exists_eq_add_of_le' hn
  cases m with
  | zero =>
    have hone : ¬ 2 ≤ 0 + 1 := by decide
    rw [or_iff_right hone]
    exact ProcessorSelector.created_in_range_iff strategy calls
  | succ m =>
    refine iff_of_true ?_ (.inl (by omega))
    refine ProcessorSelector.placements_in_range (by omega) ⟨le_rfl, ?_⟩
    rw [ProcessorSelector.created]
    dsimp only
    omega

/-- Two calls with two processors. -/
def twoOfTwo : List (SelectorCall 2) := [.next ⟨[2, 3], rfl⟩, .next ⟨[2, 4], rfl⟩]

theorem reads_in_range_two :
    ((ProcessorSelector.created ROUND_ROBIN).placements twoOfTwo).map (·.reads) = [[0, 0], [0, 1]] ∧
      ∀ p ∈ (ProcessorSelector.created ROUND_ROBIN).placements twoOfTwo,
        ∀ i ∈ p.reads, 0 ≤ i ∧ i < ((2 : ℕ) : ℤ) :=
  ⟨by decide, (reads_in_range_iff (by decide) ROUND_ROBIN twoOfTwo).mpr (.inl le_rfl)⟩

/-- With one processor the second call goes past it. -/
theorem second_call_out_of_range :
    ¬ ∀ p ∈ (ProcessorSelector.created ROUND_ROBIN).placements
      ([.next ⟨[0], rfl⟩, .next ⟨[1], rfl⟩] : List (SelectorCall 1)),
      ∀ i ∈ p.reads, 0 ≤ i ∧ i < 1 := by
  intro h
  have hread := h ⟨ROUND_ROBIN, [0, 1], some 1⟩ (List.mem_cons_of_mem _ List.mem_cons_self) 1
    (List.mem_cons_of_mem _ List.mem_cons_self)
  exact absurd hread.2 (by decide)

end Copnet
