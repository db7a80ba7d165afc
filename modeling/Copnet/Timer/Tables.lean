import Copnet.Timer.LocalTime

/-!
# Local time stays inside its tables

Neither loop of `Time::toLocalTime` has a bound of its own. The year loop ends because it starts at
the first year of a block of four and is given less than the hours of the block, and the month loop
because the day it is given is one of a common year, the leap day having been taken out before.

Here `toLocalTime` is run once more with a record of what its loops do. All instants are covered:
those before 1970, which count as its first second, and those whose hours do not fit 32 bits, for
which the block is not the right one but the rest of the division still lies within a block.
-/

namespace Copnet

/-- What a call of `toLocalTime` does. -/
structure LocalTimeRun where
  /-- How often the year loop increments `tm_year`. -/
  increments : ℕ
  /-- The indices at which the month loop reads `days`. -/
  reads : List ℕ
  /-- The fields that it stores, if every index was one of the table. -/
  stored : Option Tm
deriving DecidableEq

namespace Time

/-- The increments of `tm_year` in the year loop. -/
def yearIncrements (tmYear second : ℕ) : ℕ :=
  if second < hpery tmYear then 0
  else yearIncrements (tmYear + 1) (second - hpery tmYear) + 1
termination_by second
decreasing_by
  have := hpery_pos tmYear
  omega

/-- The indices at which the month loop reads its table, also the one past the end. -/
def monthLoopReads : List ℕ → ℕ → ℕ → List ℕ
  | [], tmMon, _ => [tmMon]
  | days :: rest, tmMon, second =>
    if days < second then tmMon :: monthLoopReads rest (tmMon + 1) (second - days) else [tmMon]

/-- The indices that are read for month and day. -/
def monthReads (tmYear second : ℕ) : List ℕ :=
  if tmYear &&& 3 = 0 then
    if second > 60 then monthLoopReads days 0 (second - 1)
    else if second = 60 then []
    else monthLoopReads days 0 second
  else monthLoopReads days 0 second

/-- `Time::toLocalTime` with a record of its loops. -/
def localTimeRun (second timezone : ℤ) : LocalTimeRun :=
  let second := (second - timezone).toNat
  let tmSec := second % 60
  let second := second / 60
  let tmMin := second % 60
  let second := second / 60
  let pass4year := second % 2 ^ 32 / (1461 * 24)
  let tmYear := (pass4year <<< 2 % 2 ^ 32 + 70) % 2 ^ 32
  let increments := yearIncrements tmYear (second % (1461 * 24))
  let (tmYear, second) := yearLoop tmYear (second % (1461 * 24))
  let tmHour := second % 24
  { increments
    reads := monthReads tmYear (second / 24 + 1)
    stored := (monthAndDay tmYear (second / 24 + 1)).map fun (tmMon, tmMday) ↦
      ⟨tmSec, tmMin, tmHour, tmMday, tmMon, tmYear⟩ }

theorem stored_localTimeRun (second timezone : ℤ) :
    (localTimeRun second timezone).stored = toLocalTime second timezone := rfl

/-! ## The year loop -/

theorem yearLoop_fst (tmYear second : ℕ) :
    (yearLoop tmYear second).1 = tmYear + yearIncrements tmYear second := by
  induction tmYear, second using yearLoop.induct with
  | case1 tmYear second hlt => rw [yearLoop, yearIncrements, if_pos hlt, if_pos hlt, Nat.add_zero]
  | case2 tmYear second hge ih =>
    rw [yearLoop, yearIncrements, if_neg hge, if_neg hge, ih]
    omega

/-- **The year loop stays in its block.** A fourth increment would take the hours of four years,
and there are fewer. -/
theorem yearIncrements_le {second : ℕ} (q : ℕ) (hlt : second < 1461 * 24) :
    yearIncrements (70 + 4 * q) second ≤ 3 := by
  obtain ⟨tmYear, hours, -, -, hloop, -, hsum, -⟩ := loops_spec q second
  have hyear := yearLoop_fst (70 + 4 * q) second
  rw [hloop] at hyear
  dsimp only at hyear
  by_contra hmore
  have hnext : everyFourth.daysBeforeYear (1970 + 4 * (q + 1)) ≤
      everyFourth.daysBeforeYear (1900 + tmYear) := Calendar.daysBeforeYear_mono (by omega)
  rw [daysBeforeYear_block] at hnext
  omega

/-! ## The month loop -/

theorem monthLoopReads_eq {table : List ℕ} {tmMon second m tmMday : ℕ}
    (h : monthLoop table tmMon second = some (m, tmMday)) :
    tmMon ≤ m ∧ monthLoopReads table tmMon second = List.range' tmMon (m + 1 - tmMon) := by
  induction table generalizing tmMon second with
  | nil => exact absurd h (by rw [monthLoop]; simp)
  | cons n table ih =>
    rw [monthLoop] at h
    rw [monthLoopReads]
    split at h
    · next hlt =>
      obtain ⟨hle, hreads⟩ := ih h
      have hlen : m + 1 - tmMon = m + 1 - (tmMon + 1) + 1 := by omega
      rw [if_pos hlt, hreads, hlen, List.range'_succ]
      exact ⟨by omega, rfl⟩
    · next hge =>
      obtain ⟨rfl, -⟩ := Prod.mk.inj (Option.some.inj h)
      rw [if_neg hge, Nat.add_sub_cancel_left]
      exact ⟨le_rfl, rfl⟩

/-- **The month loop stays in its table** if it is to end in one of its months. -/
theorem monthReads_le {tmYear second tmMon tmMday : ℕ}
    (h : monthAndDay tmYear second = some (tmMon, tmMday)) :
    ∀ i ∈ monthReads tmYear second, i ≤ tmMon := by
  have hloop : ∀ second, monthLoop days 0 second = some (tmMon, tmMday) →
      ∀ i ∈ monthLoopReads days 0 second, i ≤ tmMon := by
    intro second h i hi
    rw [(monthLoopReads_eq h).2, List.mem_range'_1] at hi
    omega
  rw [monthAndDay] at h
  rw [monthReads]
  split at h
  · next hleap =>
    rw [if_pos hleap]
    split at h
    · next hafter =>
      rw [if_pos hafter]
      exact hloop _ h
    · next hbefore =>
      rw [if_neg hbefore]
      split at h
      · next heq =>
        rw [if_pos heq]
        exact fun i hi ↦ absurd hi (List.not_mem_nil)
      · next hne =>
        rw [if_neg hne]
        exact hloop _ h
  · next hcommon =>
    rw [if_neg hcommon]
    exact hloop _ h

end Time

/-- **Local time stays inside its tables.** For every instant, in whatever zone, the year loop
increments `tm_year` at most three times, the month loop reads `days` at the indices 0 to 11 only,
and a date is stored, its day between 1 and the length of its month, with a year that an `int`
holds. -/
theorem toLocalTime_in_tables (second timezone : ℤ) :
    (Time.localTimeRun second timezone).increments ≤ 3 ∧
      (∀ i ∈ (Time.localTimeRun second timezone).reads, i < days.length) ∧
      ∃ tm, (Time.localTimeRun second timezone).stored = some tm ∧
        Time.toLocalTime second timezone = some tm ∧
        (∃ length, (Time.everyFourth.monthDays (1900 + tm.tmYear))[tm.tmMon]? = some length ∧
          1 ≤ tm.tmMday ∧ tm.tmMday ≤ length) ∧
        tm.tmYear = 70 + 4 * ((second - timezone).toNat / 3600 % 2 ^ 32 / (1461 * 24)) +
          (Time.localTimeRun second timezone).increments ∧
        tm.tmYear < 2 ^ 31 := by
  rw [← Time.stored_localTimeRun, Time.localTimeRun]
  generalize (second - timezone).toNat = n
  dsimp only
  rw [Time.firstYear_eq]
  have hrest : n / 60 / 60 % (1461 * 24) < 1461 * 24 := Nat.mod_lt _ (by decide)
  have hincrements := Time.yearIncrements_le (n / 60 / 60 % 2 ^ 32 / (1461 * 24)) hrest
  obtain ⟨tmYear, hours, tmMon, tmMday, hloop, -, -, hmonth, length, hlength, hpos, hle, -⟩ :=
    Time.loops_spec (n / 60 / 60 % 2 ^ 32 / (1461 * 24)) (n / 60 / 60 % (1461 * 24))
  have hyear := Time.yearLoop_fst (70 + 4 * (n / 60 / 60 % 2 ^ 32 / (1461 * 24)))
    (n / 60 / 60 % (1461 * 24))
  rw [hloop] at hyear ⊢
  have htwelve : tmMon < 12 := (List.getElem?_eq_some_iff.mp hlength).1
  refine ⟨hincrements, fun i hi ↦ (Time.monthReads_le hmonth i hi).trans_lt htwelve, _,
    by rw [hmonth, Option.map_some], by rw [hmonth, Option.map_some],
    ⟨length, hlength, hpos, hle⟩, ?_, ?_⟩
  · rw [← Nat.div_div_eq_div_mul n 60 60]
    exact hyear
  · dsimp only
    omega

/-- The last instant that 64 bits hold, whose hours do not fit 32 bits. -/
example : Time.localTimeRun (2 ^ 63 - 1) 0 =
    ⟨1, [0, 1, 2, 3], some ⟨7, 30, 15, 25, 3, 115483⟩⟩ := by
  decide +kernel

end Copnet
