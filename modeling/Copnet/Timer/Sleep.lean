import Copnet.Timer.Delivery

/-!
# How long a sleep is

`co_sleep(t)` and `Processor::wait(t)` put the coroutine into the timer with `runAfter`, at the
instant `clock` say, and it is resumed when a later iteration of the loop finds it in the output of
`getExpiredCoroutines`. The deadline is the reading of the clock plus `t`, and a reading is rounded
down. So a sleep that is asked for in the middle of a millisecond may end by the rest of that
millisecond too early, and one that is asked for at the beginning of a millisecond may not. And the
sum is an `int64_t`, so that a sleep that is too long for it ends at once.

The heap may hold other entries of the same coroutine, so a call is said to wake the sleeper if the
sleep makes it put the coroutine out once more than it would without.
-/

namespace Copnet

namespace Timer

/-- `Timer::runAfter`, which reads the clock for the deadline and again to arm the descriptor. -/
def runAfter (t : Timer) (clock clock' time : ℤ) (pCo : Addr) : Timer :=
  t.runAt clock' (runTime clock time) pCo

end Timer

/-- The readings of the clock in a call, in order. -/
def TimerCall.readings : TimerCall → List ℤ
  | .runAt clock _ _ => [clock]
  | .getExpired clock clock' => [clock, clock']

/-- The clock does not go back, from the instant `clock` on. -/
def Chronological (clock : ℤ) (calls : List TimerCall) : Prop :=
  (clock :: calls.flatMap TimerCall.readings).Pairwise (· ≤ ·)

instance (clock : ℤ) (calls : List TimerCall) : Decidable (Chronological clock calls) :=
  inferInstanceAs (Decidable (List.Pairwise _ _))

/-- Call `j` of those after a sleep of `time` milliseconds puts the sleeper out: its output has the
coroutine once more than it would have without the sleep. -/
def Wakes (t : Timer) (clock clock' time : ℤ) (pCo : Addr) (calls : List TimerCall) (j : ℕ) :
    Prop :=
  ∃ out out', ((t.runAfter clock clock' time pCo).outputs calls)[j]? = some out ∧
    (t.outputs calls)[j]? = some out' ∧ out.count pCo = out'.count pCo + 1

/-- Whatever calls follow while the clock goes on, the sleeper is put out `time` milliseconds after
the instant `clock` or later. -/
def SleepsLongEnough (t : Timer) (clock time : ℤ) (pCo : Addr) : Prop :=
  ∀ clock' calls, clock ≤ clock' → Chronological clock' calls →
    ∀ j u u', calls[j]? = some (.getExpired u u') → Wakes t clock clock' time pCo calls j →
      1000 * time ≤ u - clock

/-! ## The call that wakes -/

section Wakes

variable {t : Timer} {clock clock' time u u' : ℤ} {pCo : Addr} {calls : List TimerCall} {j : ℕ}

theorem count_outputs (t : Timer) (pCo : Addr)
    (hj : calls[j]? = some (.getExpired u u')) :
    ∃ out, (t.outputs calls)[j]? = some out ∧ out.count pCo =
      ((dueAt t.heap.toMultiset calls (some j) + deliveries calls j).map Prod.snd).count pCo := by
  refine ⟨_, (Timer.outputs_heap t calls j hj).1, ?_⟩
  rw [Timer.due_eq t calls j hj, ← Multiset.coe_count, ← Multiset.map_coe, Multiset.sort_eq]

/-- **The call that wakes the sleeper** is the first whose reading of the clock has come to the
deadline. -/
theorem wakes_iff (hj : calls[j]? = some (.getExpired u u')) :
    Wakes t clock clock' time pCo calls j ↔ firstDue (Timer.runTime clock time) calls = some j := by
  obtain ⟨out, hout, hcount⟩ := count_outputs (t.runAfter clock clock' time pCo)
    pCo hj
  obtain ⟨out', hout', hcount'⟩ := count_outputs t pCo hj
  -- the entry of the sleep joins the entries that wait for its first due call
  rw [Timer.runAfter, Timer.toMultiset_runAt, dueAt_cons, add_assoc, Multiset.map_add,
    Multiset.count_add, ← hcount'] at hcount
  have hwakes : Wakes t clock clock' time pCo calls j ↔ out.count pCo = out'.count pCo + 1 := by
    constructor
    · rintro ⟨out₁, out₂, h₁, h₂, h⟩
      rw [Option.some.inj (hout.symm.trans h₁), Option.some.inj (hout'.symm.trans h₂)]
      exact h
    · exact fun h ↦ ⟨out, out', hout, hout', h⟩
  rw [hwakes, hcount]
  split
  · next hfirst => simp [hfirst, Nat.add_comm]
  · next hfirst => simp [hfirst]

theorem wakes_iff_mem (hj : calls[j]? = some (.getExpired u u'))
    (hheap : pCo ∉ t.heap.sleepers) (hcalls : ∀ e ∈ deliveries calls j, e.2 ≠ pCo) :
    Wakes t clock clock' time pCo calls j ↔
      ∃ out, ((t.runAfter clock clock' time pCo).outputs calls)[j]? = some out ∧ pCo ∈ out := by
  obtain ⟨out, hout, hcount⟩ := count_outputs (t.runAfter clock clock' time pCo)
    pCo hj
  rw [Timer.runAfter, Timer.toMultiset_runAt, dueAt_cons, add_assoc, Multiset.map_add,
    Multiset.count_add] at hcount
  have hnone : ((dueAt t.heap.toMultiset calls (some j) + deliveries calls j).map Prod.snd).count
      pCo = 0 := by
    rw [Multiset.count_eq_zero, Multiset.mem_map]
    rintro ⟨e, he, rfl⟩
    rcases Multiset.mem_add.mp he with he | he
    · exact hheap (List.mem_map_of_mem (Multiset.mem_of_mem_filter he))
    · exact hcalls e he rfl
  rw [hnone, add_zero] at hcount
  rw [wakes_iff hj]
  constructor
  · intro hfirst
    refine ⟨out, hout, ?_⟩
    rw [← List.count_pos_iff, hcount, if_pos hfirst]
    simp
  · rintro ⟨out₁, hout₁, hmem⟩
    rw [← Option.some.inj (hout.symm.trans hout₁), ← List.count_pos_iff, hcount] at hmem
    by_contra hfirst
    rw [if_neg hfirst] at hmem
    simp at hmem

end Wakes

/-! ## The length of the sleep -/

/-- A call that is due at a deadline comes at the beginning of its millisecond or later. -/
theorem le_of_le_now {deadline u : ℤ} (h : deadline ≤ Time.now u) : 1000 * deadline ≤ u := by
  rw [Time.now_eq] at h
  omega

theorem Chronological.le {clock u u' : ℤ} {calls : List TimerCall} {j : ℕ}
    (h : Chronological clock calls) (hj : calls[j]? = some (.getExpired u u')) : clock ≤ u := by
  refine List.rel_of_pairwise_cons h (List.mem_flatMap.mpr ⟨_, List.mem_of_getElem? hj, ?_⟩)
  exact List.mem_cons_self

/-- **When a sleep is as long as asked.** A coroutine that asks, at the instant `clock`, to sleep
for `time` milliseconds sleeps that long, whatever the timer holds and however its loop goes on,
exactly if it asks for no time at all, or asks at the beginning of a millisecond for a deadline
that is an `int64_t`. -/
theorem sleepsLongEnough_iff (t : Timer) (clock time : ℤ) (hnow : IsInt64 (Time.now clock))
    (htime : 0 ≤ time) (pCo : Addr) :
    SleepsLongEnough t clock time pCo ↔
      time = 0 ∨ clock % 1000 = 0 ∧ Time.now clock + time < 2 ^ 63 := by
  have hlow : Timer.runTime clock time ≤ Time.now clock + time :=
    int64_le (by linarith [hnow.1])
  constructor
  · intro h
    by_contra hcond
    rw [not_or, not_and_or, not_lt] at hcond
    obtain ⟨hpos, hbad⟩ := hcond
    -- the loop comes round when the deadline has just been reached, at the earliest now
    obtain ⟨u, hu, hlate, hdue⟩ : ∃ u, (u = clock ∨ u = 1000 * Timer.runTime clock time) ∧
        clock ≤ u ∧ Timer.runTime clock time ≤ Time.now u := by
      rcases le_total clock (1000 * Timer.runTime clock time) with hle | hle
      · exact ⟨_, .inr rfl, hle, by rw [Time.now_eq]; omega⟩
      · exact ⟨_, .inl rfl, le_rfl, by rw [Time.now_eq]; omega⟩
    have hlong := h clock [.getExpired u u] le_rfl
      (by simp [Chronological, TimerCall.readings, hlate]) 0 u u rfl
      ((wakes_iff rfl).mpr (firstDue_of_due hdue))
    have hhigh : Timer.runTime clock time < 2 ^ 63 := (isInt64_int64 _).2
    rw [Time.now_eq] at hlow hbad
    rcases hu with rfl | rfl <;> omega
  · intro hcond clock' calls hclock hchron j u u' hj hwakes
    obtain ⟨u₁, u₂, hcall, hdue⟩ := exists_of_firstDue ((wakes_iff hj).mp hwakes)
    obtain ⟨rfl, -⟩ : u = u₁ ∧ u' = u₂ := by
      simpa using hj.symm.trans hcall
    have hlater : clock' ≤ u := hchron.le hj
    rcases hcond with hzero | ⟨hwhole, hrange⟩
    · omega
    · have hmillis := le_of_le_now hdue
      rw [Timer.runTime, int64_of_isInt64 ⟨by linarith [hnow.1], hrange⟩, Time.now_eq] at hmillis
      omega

/-- A sleep that is asked for at the beginning of a millisecond. -/
theorem sleepsLongEnough_whole : SleepsLongEnough .created 7000 5 64 :=
  (sleepsLongEnough_iff .created 7000 5 (by decide) (by decide) 64).mpr (.inr (by decide))

/-- One microsecond after a coroutine asked for a millisecond of sleep it is put out. -/
theorem sleep_of_one_microsecond :
    Chronological 999 [.getExpired 1000 1000] ∧
      (Timer.created.runAfter 999 999 1 64).outputs [.getExpired 1000 1000] = [[64]] ∧
      ¬ SleepsLongEnough .created 999 1 64 := by
  refine ⟨by decide, by decide, ?_⟩
  intro h
  have hlong := h 999 [.getExpired 1000 1000] le_rfl (by decide) 0 1000 1000 rfl
    ((wakes_iff rfl).mpr rfl)
  exact absurd hlong (by decide)

end Copnet
