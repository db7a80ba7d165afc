import Copnet.Foundation.Calendar
import Mathlib.Data.Int.Notation
import Mathlib.Tactic.Linarith

/-!
# Local time

`Time::toLocalTime` splits an instant into the fields of a `struct tm`: blocks of four years by
division, the year in a block by a loop, and the month by another loop, with the leap day taken out
before it. A year is taken for a leap year if its two lowest bits are zero.

The loops subtract the lengths of years and of months, so the fields are those of the date that
comes after as many days in the calendar in which every fourth year is a leap year. That calendar
and the Gregorian one agree from 1970 up to 28 February 2100.
-/

open Calendar (DayOf)

namespace Copnet

/-- The fields of `struct tm` that `toLocalTime` stores. -/
structure Tm where
  /-- `tm_sec`. -/
  tmSec : ℕ
  /-- `tm_min`. -/
  tmMin : ℕ
  /-- `tm_hour`. -/
  tmHour : ℕ
  /-- `tm_mday`, from 1 on. -/
  tmMday : ℕ
  /-- `tm_mon`, from 0 on. -/
  tmMon : ℕ
  /-- `tm_year`, from 1900 on. -/
  tmYear : ℕ
deriving DecidableEq

def days : List ℕ := [31, 28, 31, 30, 31, 30, 31, 31, 30, 31, 30, 31]

namespace Time

/-- `n32_hpery`: the hours of a year. -/
def hpery (tmYear : ℕ) : ℕ := if tmYear &&& 3 = 0 then 365 * 24 + 24 else 365 * 24

theorem hpery_pos (tmYear : ℕ) : 0 < hpery tmYear := by
  rw [hpery]
  split <;> decide

/-- The loop that takes whole years from the hours. -/
def yearLoop (tmYear second : ℕ) : ℕ × ℕ :=
  if second < hpery tmYear then (tmYear, second)
  else yearLoop (tmYear + 1) (second - hpery tmYear)
termination_by second
decreasing_by
  have := hpery_pos tmYear
  omega

/-- The loop that takes whole months from the days, with what is left of the table; past its end
it would read what is not there. -/
def monthLoop : List ℕ → ℕ → ℕ → Option (ℕ × ℕ)
  | [], _, _ => none
  | days :: rest, tmMon, second =>
    if days < second then monthLoop rest (tmMon + 1) (second - days) else some (tmMon, second)

/-- Month and day for a day of the year, counted from 1. The 29 February is stored at once, and the
days after it count as those of a common year. -/
def monthAndDay (tmYear second : ℕ) : Option (ℕ × ℕ) :=
  if tmYear &&& 3 = 0 then
    if second > 60 then monthLoop days 0 (second - 1)
    else if second = 60 then some (1, 29)
    else monthLoop days 0 second
  else monthLoop days 0 second

def toLocalTime (second timezone : ℤ) : Option Tm :=
  -- a negative difference is set to zero
  let second := (second - timezone).toNat
  let tmSec := second % 60
  let second := second / 60
  let tmMin := second % 60
  let second := second / 60
  -- the quotient is taken of the lowest 32 bits, the remainder below of all
  let pass4year := second % 2 ^ 32 / (1461 * 24)
  let tmYear := (pass4year <<< 2 % 2 ^ 32 + 70) % 2 ^ 32
  let (tmYear, second) := yearLoop tmYear (second % (1461 * 24))
  let tmHour := second % 24
  (monthAndDay tmYear (second / 24 + 1)).map fun (tmMon, tmMday) ↦
    ⟨tmSec, tmMin, tmHour, tmMday, tmMon, tmYear⟩

end Time

/-- The fields for the instant that is `second` seconds after the first one of a calendar. -/
def Tm.ofSecond (C : Calendar) (second : ℕ) : Tm :=
  let date := C.dateOf (second / 86400)
  ⟨second % 60, second / 60 % 60, second / 3600 % 24, date.day, date.month, date.year - 1900⟩

namespace Time

/-! ## The loops -/

/-- The calendar that the code computes in. -/
abbrev everyFourth : Calendar := .julian 1970

theorem and_three (n : ℕ) : n &&& 3 = n % 4 := Nat.and_two_pow_sub_one_eq_mod n 2

theorem leap_iff (tmYear : ℕ) : everyFourth.leap (1900 + tmYear) = true ↔ tmYear &&& 3 = 0 := by
  rw [and_three, Calendar.leap_julian, decide_eq_true_iff]
  omega

theorem hpery_eq (tmYear : ℕ) : hpery tmYear = 24 * everyFourth.yearDays (1900 + tmYear) := by
  rw [hpery, Calendar.yearDays_eq]
  by_cases h : tmYear &&& 3 = 0
  · rw [if_pos h, if_pos ((leap_iff tmYear).mpr h)]
  · rw [if_neg h, if_neg (mt (leap_iff tmYear).mp h)]

/-- **The year loop** ends inside a year, and has taken off the hours of the years before. -/
theorem yearLoop_spec (tmYear second : ℕ) (hyear : 70 ≤ tmYear) :
    70 ≤ (yearLoop tmYear second).1 ∧
      (yearLoop tmYear second).2 < hpery (yearLoop tmYear second).1 ∧
      24 * everyFourth.daysBeforeYear (1900 + tmYear) + second =
        24 * everyFourth.daysBeforeYear (1900 + (yearLoop tmYear second).1) +
          (yearLoop tmYear second).2 := by
  induction tmYear, second using yearLoop.induct with
  | case1 tmYear second hlt =>
    rw [yearLoop, if_pos hlt]
    exact ⟨hyear, hlt, rfl⟩
  | case2 tmYear second hge ih =>
    rw [yearLoop, if_neg hge]
    obtain ⟨hle, hend, hsum⟩ := ih (by omega)
    refine ⟨hle, hend, ?_⟩
    have horigin : everyFourth.origin ≤ 1900 + tmYear := by
      change 1970 ≤ 1900 + tmYear
      omega
    rw [← hsum, ← Nat.add_assoc, Calendar.daysBeforeYear_succ horigin, Nat.mul_add, ← hpery_eq]
    omega

theorem monthLoop_spec (table : List ℕ) (tmMon second : ℕ) (hpos : 1 ≤ second)
    (hsum : second ≤ table.sum) :
    ∃ m tmMday, monthLoop table tmMon second = some (tmMon + m, tmMday) ∧
      DayOf table second m tmMday := by
  induction table generalizing tmMon second with
  | nil =>
    rw [List.sum_nil] at hsum
    omega
  | cons n table ih =>
    rw [monthLoop]
    rw [List.sum_cons] at hsum
    split
    · next hlt =>
      obtain ⟨m, tmMday, hloop, n', hget, hlow, hhigh, hday⟩ :=
        ih (tmMon + 1) (second - n) (by omega) (by omega)
      refine ⟨m + 1, tmMday, ?_, n', hget, hlow, hhigh, ?_⟩
      · rw [hloop, Nat.add_right_comm]
        rfl
      · rw [List.take_succ_cons, List.sum_cons]
        omega
    · next hge => exact ⟨0, second, rfl, n, rfl, hpos, not_lt.mp hge, Nat.zero_add _⟩

/-! ## The leap day -/

/-- The months of a leap year. -/
def leapDays : List ℕ := 31 :: 29 :: days.drop 2

theorem monthDays_of_common {tmYear : ℕ} (h : ¬ tmYear &&& 3 = 0) :
    everyFourth.monthDays (1900 + tmYear) = days := by
  have hleap : everyFourth.leap (1900 + tmYear) = false :=
    Bool.eq_false_iff.mpr (mt (leap_iff tmYear).mp h)
  rw [Calendar.monthDays, hleap]
  rfl

theorem monthDays_of_leap {tmYear : ℕ} (h : tmYear &&& 3 = 0) :
    everyFourth.monthDays (1900 + tmYear) = leapDays := by
  rw [Calendar.monthDays, (leap_iff tmYear).mpr h]
  rfl

/-- The days before a month from March on, in a common year and in a leap year. -/
theorem sum_take_days (m : ℕ) :
    (days.take (m + 2)).sum = 59 + ((days.drop 2).take m).sum ∧
      (leapDays.take (m + 2)).sum = 60 + ((days.drop 2).take m).sum := by
  constructor <;> simp [days, leapDays, ← Nat.add_assoc]

theorem dayOf_before_leapDay {second tmMon tmMday : ℕ} (h : DayOf days second tmMon tmMday)
    (hlt : second < 60) : DayOf leapDays second tmMon tmMday := by
  obtain ⟨n, hget, hpos, hle, hday⟩ := h
  match tmMon with
  | 0 => exact ⟨31, rfl, hpos, by rwa [Option.some.inj hget], hday⟩
  | 1 =>
    obtain rfl : 28 = n := Option.some.inj hget
    exact ⟨29, rfl, hpos, by omega, hday⟩
  | m + 2 =>
    have := (sum_take_days m).1
    omega

theorem dayOf_after_leapDay {second tmMon tmMday : ℕ} (h : DayOf days second tmMon tmMday)
    (hge : 60 ≤ second) : DayOf leapDays (second + 1) tmMon tmMday := by
  obtain ⟨n, hget, hpos, hle, hday⟩ := h
  match tmMon with
  | 0 =>
    obtain rfl : 31 = n := Option.some.inj hget
    rw [List.take_zero, List.sum_nil] at hday
    omega
  | 1 =>
    obtain rfl : 28 = n := Option.some.inj hget
    have htake : (days.take 1).sum = 31 := rfl
    omega
  | m + 2 =>
    obtain ⟨hcommon, hleap⟩ := sum_take_days m
    exact ⟨n, hget, hpos, hle, by omega⟩

theorem monthAndDay_spec (tmYear : ℕ) {second : ℕ} (hpos : 1 ≤ second)
    (hle : second ≤ everyFourth.yearDays (1900 + tmYear)) :
    ∃ tmMon tmMday, monthAndDay tmYear second = some (tmMon, tmMday) ∧
      DayOf (everyFourth.monthDays (1900 + tmYear)) second tmMon tmMday := by
  have hloop : ∀ second, 1 ≤ second → second ≤ 365 → ∃ tmMon tmMday,
      monthLoop days 0 second = some (tmMon, tmMday) ∧ DayOf days second tmMon tmMday := by
    intro second hpos hle
    obtain ⟨m, tmMday, h, hday⟩ := monthLoop_spec days 0 second hpos hle
    exact ⟨m, tmMday, by rw [h, Nat.zero_add], hday⟩
  rw [Calendar.yearDays_eq] at hle
  rw [monthAndDay]
  by_cases hleap : tmYear &&& 3 = 0
  · rw [if_pos ((leap_iff tmYear).mpr hleap)] at hle
    rw [if_pos hleap, monthDays_of_leap hleap]
    split
    · next hafter =>
      obtain ⟨tmMon, tmMday, h, hday⟩ := hloop (second - 1) (by omega) (by omega)
      have hshift : second - 1 + 1 = second := by omega
      exact ⟨tmMon, tmMday, h, hshift ▸ dayOf_after_leapDay hday (by omega)⟩
    · next hbefore =>
      split
      · next heq => exact ⟨1, 29, rfl, 29, rfl, by decide, le_rfl, heq.symm⟩
      · next hne =>
        obtain ⟨tmMon, tmMday, h, hday⟩ := hloop second hpos (by omega)
        exact ⟨tmMon, tmMday, h, dayOf_before_leapDay hday (by omega)⟩
  · rw [if_neg (mt (leap_iff tmYear).mp hleap)] at hle
    rw [if_neg hleap, monthDays_of_common hleap]
    exact hloop second hpos hle

/-! ## The calendar of the code -/

theorem daysBeforeYear_block (q : ℕ) : everyFourth.daysBeforeYear (1970 + 4 * q) = 1461 * q := by
  induction q with
  | zero => rfl
  | succ q ih =>
    have hstep : ∀ i, everyFourth.daysBeforeYear (1970 + 4 * q + i + 1) =
        everyFourth.daysBeforeYear (1970 + 4 * q + i) +
          (365 + if (1970 + 4 * q + i) % 4 = 0 then 1 else 0) := by
      intro i
      have horigin : everyFourth.origin ≤ 1970 + 4 * q + i := by
        change 1970 ≤ 1970 + 4 * q + i
        omega
      rw [Calendar.daysBeforeYear_succ horigin, Calendar.yearDays_eq]
      simp [Calendar.julian]
    have h₀ := hstep 0
    have h₁ := hstep 1
    have h₂ := hstep 2
    have h₃ := hstep 3
    rw [if_neg (by omega)] at h₀ h₁ h₃
    rw [if_pos (by omega)] at h₂
    simp only [Nat.add_assoc, Nat.reduceAdd, Nat.add_zero] at h₀ h₁ h₂ h₃ ih
    rw [Nat.mul_add, Nat.mul_one, h₃, h₂, h₁, h₀, ih]
    omega

/-- The block of four years begins at its first year: neither the shift nor the sum wraps. -/
theorem firstYear_eq (hours : ℕ) :
    ((hours % 2 ^ 32 / (1461 * 24)) <<< 2 % 2 ^ 32 + 70) % 2 ^ 32 =
      70 + 4 * (hours % 2 ^ 32 / (1461 * 24)) := by
  rw [Nat.shiftLeft_eq]
  omega

/-- **The loops**, from the first year of a block on: the year, with the hours that are left of it,
and the month and the day of the day of the year. -/
theorem loops_spec (q second : ℕ) :
    ∃ tmYear hours tmMon tmMday, yearLoop (70 + 4 * q) second = (tmYear, hours) ∧ 70 ≤ tmYear ∧
      24 * (1461 * q) + second = 24 * everyFourth.daysBeforeYear (1900 + tmYear) + hours ∧
      monthAndDay tmYear (hours / 24 + 1) = some (tmMon, tmMday) ∧
      DayOf (everyFourth.monthDays (1900 + tmYear)) (hours / 24 + 1) tmMon tmMday := by
  obtain ⟨hle, hend, hsum⟩ := yearLoop_spec (70 + 4 * q) second (Nat.le_add_right _ _)
  rw [← Nat.add_assoc, daysBeforeYear_block] at hsum
  generalize yearLoop (70 + 4 * q) second = p at hle hend hsum ⊢
  obtain ⟨tmYear, hours⟩ := p
  dsimp only at hle hend hsum
  rw [hpery_eq] at hend
  have hyearDay : hours / 24 + 1 ≤ everyFourth.yearDays (1900 + tmYear) := by omega
  obtain ⟨tmMon, tmMday, hmonth, hday⟩ := monthAndDay_spec tmYear (Nat.le_add_left 1 _) hyearDay
  exact ⟨tmYear, hours, tmMon, tmMday, rfl, hle, hsum, hmonth, hday⟩

/-- **What the code computes**: the fields of the date that comes after as many days in the calendar
in which every fourth year is a leap year. -/
theorem toLocalTime_eq {second timezone : ℤ}
    (hhours : ((second - timezone).toNat / 3600 : ℕ) < 2 ^ 32) :
    toLocalTime second timezone = some (Tm.ofSecond everyFourth (second - timezone).toNat) := by
  rw [toLocalTime]
  generalize (second - timezone).toNat = n at hhours
  dsimp only
  have hlow : n / 60 / 60 % 2 ^ 32 = n / 60 / 60 := Nat.mod_eq_of_lt (by omega)
  rw [firstYear_eq, hlow]
  obtain ⟨tmYear, hours, tmMon, tmMday, hloop, hle, hsum, hmonth, hday⟩ :=
    loops_spec (n / 60 / 60 / (1461 * 24)) (n / 60 / 60 % (1461 * 24))
  rw [hloop]
  have hdate : (⟨1900 + tmYear, tmMon, tmMday⟩ : CalendarDate) =
      everyFourth.dateOf (n / 86400) := by
    refine Calendar.eq_dateOf_iff_dayOf.mpr ⟨?_, hours / 24 + 1, ?_, hday⟩
    · change 1970 ≤ 1900 + tmYear
      omega
    · dsimp only
      omega
  dsimp only
  rw [hmonth, Option.map_some, Tm.ofSecond, ← hdate]
  dsimp only
  rw [Nat.add_sub_cancel_left]
  have hhour : hours % 24 = n / 3600 % 24 := by omega
  rw [hhour]

/-! ## The Gregorian calendar -/

/-- The Gregorian calendar, its days counted from 1 January 1970. -/
abbrev gregorian : Calendar := .gregorian 1970

theorem leap_of_gregorian (y : ℕ) (h : gregorian.leap y = true) : everyFourth.leap y = true := by
  rw [Calendar.leap_gregorian, decide_eq_true_iff] at h
  exact decide_eq_true h.1

theorem leap_eq_of_lt {y : ℕ} (hfrom : 1970 ≤ y) (hto : y < 2100) :
    gregorian.leap y = everyFourth.leap y := by
  rw [Calendar.leap_gregorian, Calendar.leap_julian, decide_eq_decide]
  omega

theorem daysBeforeYear_eq_of_le {y : ℕ} (hto : y ≤ 2100) :
    gregorian.daysBeforeYear y = everyFourth.daysBeforeYear y :=
  Calendar.daysBeforeYear_congr rfl fun _ hle hlt ↦ leap_eq_of_lt hle (by omega)

theorem daysBeforeYear_2100 : everyFourth.daysBeforeYear 2100 = 47482 := by decide +kernel

/-- A day of a leap year has the same date in a common year exactly if it is before the leap day. -/
theorem dayOf_days_iff {second tmMon tmMday : ℕ} (h : DayOf leapDays second tmMon tmMday) :
    DayOf days second tmMon tmMday ↔ second < 60 := by
  obtain ⟨n, hget, hpos, hle, hday⟩ := h
  match tmMon with
  | 0 =>
    obtain rfl : 31 = n := Option.some.inj hget
    have hsecond : second = tmMday := by rw [← hday, List.take_zero, List.sum_nil, Nat.zero_add]
    exact iff_of_true ⟨31, rfl, hpos, hle, by rw [hsecond]; exact Nat.zero_add _⟩ (by omega)
  | 1 =>
    have hsecond : 31 + tmMday = second := hday
    constructor
    · rintro ⟨n', hget', -, hle', -⟩
      obtain rfl : 28 = n' := Option.some.inj hget'
      omega
    · exact fun hlt ↦ ⟨28, rfl, hpos, by omega, hday⟩
  | m + 2 =>
    obtain ⟨hcommon, hleap⟩ := sum_take_days m
    refine iff_of_false ?_ (by omega)
    rintro ⟨-, -, -, -, hday'⟩
    omega

section Dates

variable {d : CalendarDate} {k : ℕ}

theorem eq_dateOf_of_lt (hd : d = everyFourth.dateOf k) (hlt : d.year < 2100) :
    d = gregorian.dateOf k ∧ k < 47541 := by
  obtain ⟨horigin, n, hcount, hday⟩ := Calendar.eq_dateOf_iff_dayOf.mp hd
  have hmonths : gregorian.monthDays d.year = everyFourth.monthDays d.year :=
    Calendar.monthDays_congr (leap_eq_of_lt horigin hlt)
  have hyears : gregorian.daysBeforeYear d.year = everyFourth.daysBeforeYear d.year :=
    daysBeforeYear_eq_of_le hlt.le
  rw [Calendar.eq_dateOf_iff_dayOf, hmonths, hyears]
  refine ⟨⟨horigin, n, hcount, hday⟩, ?_⟩
  have hle : n ≤ everyFourth.yearDays d.year := by
    obtain ⟨l, hl, hpos, hle, rfl⟩ := hday
    exact Calendar.Valid.day_le_yearDays (d := d) ⟨horigin, l, hl, hpos, hle⟩
  have hsucc := Calendar.daysBeforeYear_succ horigin
  have hmono : everyFourth.daysBeforeYear (d.year + 1) ≤ everyFourth.daysBeforeYear 2100 :=
    Calendar.daysBeforeYear_mono hlt
  have := daysBeforeYear_2100
  omega

theorem eq_dateOf_iff_of_eq (hd : d = everyFourth.dateOf k) (heq : d.year = 2100) :
    d = gregorian.dateOf k ↔ k < 47541 := by
  obtain ⟨horigin, n, hcount, hday⟩ := Calendar.eq_dateOf_iff_dayOf.mp hd
  have hleap : everyFourth.monthDays d.year = leapDays := by rw [heq]; rfl
  have hcommon : gregorian.monthDays d.year = days := by rw [heq]; rfl
  have hyears : gregorian.daysBeforeYear d.year = 47482 := by
    rw [heq, daysBeforeYear_eq_of_le le_rfl, daysBeforeYear_2100]
  rw [hleap] at hday
  rw [heq, daysBeforeYear_2100] at hcount
  rw [Calendar.eq_dateOf_iff_dayOf, hcommon, hyears]
  constructor
  · rintro ⟨-, n', hcount', hday'⟩
    obtain rfl : n' = n := by omega
    have := (dayOf_days_iff hday).mp hday'
    omega
  · intro hk
    exact ⟨horigin, n, hcount, (dayOf_days_iff hday).mpr (by omega)⟩

theorem ne_dateOf_of_gt (hd : d = everyFourth.dateOf k) (hgt : 2100 < d.year) :
    d ≠ gregorian.dateOf k ∧ 47541 ≤ k := by
  obtain ⟨-, n, hcount, hday⟩ := Calendar.eq_dateOf_iff_dayOf.mp hd
  have hfewer : gregorian.daysBeforeYear d.year < everyFourth.daysBeforeYear d.year :=
    Calendar.daysBeforeYear_lt (z := 2100) rfl leap_of_gregorian (by decide) hgt rfl rfl
  have hmono : everyFourth.daysBeforeYear 2101 ≤ everyFourth.daysBeforeYear d.year :=
    Calendar.daysBeforeYear_mono hgt
  have hsucc : everyFourth.daysBeforeYear 2101 = 47482 + 366 := by
    rw [Calendar.daysBeforeYear_succ (by decide), daysBeforeYear_2100]
    rfl
  have hmonths : gregorian.daysBeforeMonth d.year d.month ≤
      everyFourth.daysBeforeMonth d.year d.month :=
    Calendar.daysBeforeMonth_le (leap_of_gregorian d.year)
  rw [Calendar.daysBeforeMonth, Calendar.daysBeforeMonth] at hmonths
  rw [Ne, Calendar.eq_dateOf_iff_dayOf]
  obtain ⟨-, -, -, -, rfl⟩ := hday
  refine ⟨?_, by omega⟩
  rintro ⟨-, n', hcount', -, -, -, -, rfl⟩
  omega

end Dates

/-- **Where the calendars part.** The date of the code is the Gregorian one up to 28 February
2100. -/
theorem dateOf_eq_iff (k : ℕ) : everyFourth.dateOf k = gregorian.dateOf k ↔ k < 47541 := by
  rcases Nat.lt_trichotomy (everyFourth.dateOf k).year 2100 with hlt | heq | hgt
  · have hsame := eq_dateOf_of_lt rfl hlt
    exact iff_of_true hsame.1 hsame.2
  · exact eq_dateOf_iff_of_eq rfl heq
  · have hother := ne_dateOf_of_gt rfl hgt
    exact iff_of_false hother.1 (not_lt.mpr hother.2)

end Time

/-- **When the local time is Gregorian.** For every instant from the beginning of 1970 on whose
hours fit 32 bits, `toLocalTime` stores the fields of its Gregorian date and time of the day exactly
if it is before 1 March 2100. -/
theorem toLocalTime_gregorian_iff (second timezone : ℤ) (hpos : 0 ≤ second - timezone)
    (hhours : (second - timezone) / 3600 < 2 ^ 32) :
    Time.toLocalTime second timezone =
        some (Tm.ofSecond (.gregorian 1970) (second - timezone).toNat) ↔
      second - timezone < 4107542400 := by
  have hnat : (second - timezone).toNat / 3600 < 2 ^ 32 := by omega
  rw [Time.toLocalTime_eq hnat, Option.some_inj]
  have hday : second - timezone < 4107542400 ↔ (second - timezone).toNat / 86400 < 47541 := by omega
  rw [hday, ← Time.dateOf_eq_iff, Tm.ofSecond, Tm.ofSecond]
  obtain ⟨⟨hfrom, -⟩, -⟩ := Calendar.count_dateOf Time.everyFourth
    ((second - timezone).toNat / 86400)
  obtain ⟨⟨hfrom', -⟩, -⟩ := Calendar.count_dateOf Time.gregorian
    ((second - timezone).toNat / 86400)
  have hyear : ∀ y y' : ℕ, 1970 ≤ y → 1970 ≤ y' → y - 1900 = y' - 1900 → y = y' := by omega
  constructor
  · intro h
    obtain ⟨-, -, -, hmday, hmon, htmYear⟩ := Tm.mk.inj h
    exact CalendarDate.ext (hyear _ _ hfrom hfrom' htmYear) hmon hmday
  · intro h
    rw [h]

/-- The last second of 29 February 2000, in a zone that is an hour behind. -/
theorem toLocalTime_in_2000 : Time.toLocalTime 951872399 3600 =
    some (Tm.ofSecond (.gregorian 1970) (951872399 - 3600 : ℤ).toNat) :=
  (toLocalTime_gregorian_iff 951872399 3600 (by decide) (by decide)).mpr (by decide)

example : Time.toLocalTime 951872399 3600 = some ⟨59, 59, 23, 29, 1, 100⟩ := by decide +kernel

/-- The first second of 1 March 2100 is stored as one of 29 February. -/
theorem leap_day_in_2100 :
    Time.toLocalTime 4107542400 0 = some ⟨0, 0, 0, 29, 1, 200⟩ ∧
      Tm.ofSecond (.gregorian 1970) (4107542400 - 0 : ℤ).toNat = ⟨0, 0, 0, 1, 2, 200⟩ := by
  have hdate : (⟨2100, 2, 1⟩ : CalendarDate) = Time.gregorian.dateOf 47541 := by
    refine Calendar.eq_dateOf_iff_dayOf.mpr ⟨by decide, 60, ?_, 31, rfl, by decide, by decide, rfl⟩
    rw [Time.daysBeforeYear_eq_of_le le_rfl, Time.daysBeforeYear_2100]
  refine ⟨by decide +kernel, ?_⟩
  have hsecond : (4107542400 - 0 : ℤ).toNat = 4107542400 := by decide
  have hday : 4107542400 / 86400 = 47541 := by decide
  rw [hsecond, Tm.ofSecond, hday, ← hdate]
  rfl

end Copnet
