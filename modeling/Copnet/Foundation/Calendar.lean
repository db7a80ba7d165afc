import Mathlib.Algebra.BigOperators.Intervals
import Mathlib.Algebra.Order.BigOperators.Group.Finset

/-!
# Calendars

A calendar of twelve months is given by its leap years. Its days follow one another by `next`, from
the first day of the year `origin` on, and `dateOf k` is the date `k` days after that day. A date
also has a number, `count`, the sum of the years and months before it and its day; `next` goes to a
valid date with the next number, and a valid date is known by its number. So to show that a date is
that of a day it is enough to show that it is valid and to count.

Two calendars with one origin agree up to the first leap day that only one of them has.
-/

/-- A date: the year, the month counted from 0 and the day counted from 1. -/
@[ext] structure CalendarDate where
  /-- The year. -/
  year : ℕ
  /-- The months of the year before. -/
  month : ℕ
  /-- The day of the month. -/
  day : ℕ
deriving DecidableEq

/-- A calendar of the usual months. -/
structure Calendar where
  /-- The year from whose first day the days are counted. -/
  origin : ℕ
  /-- Which years have a leap day. -/
  leap : ℕ → Bool

namespace Calendar

/-- Every fourth year is a leap year. -/
def julian (origin : ℕ) : Calendar := ⟨origin, fun y ↦ y % 4 = 0⟩

/-- Every fourth year is a leap year, but of the century years only every fourth. -/
def gregorian (origin : ℕ) : Calendar := ⟨origin, fun y ↦ y % 4 = 0 ∧ (y % 100 ≠ 0 ∨ y % 400 = 0)⟩

@[simp] theorem leap_julian (origin y : ℕ) : (julian origin).leap y = decide (y % 4 = 0) := rfl

@[simp] theorem leap_gregorian (origin y : ℕ) : (gregorian origin).leap y =
    decide (y % 4 = 0 ∧ (y % 100 ≠ 0 ∨ y % 400 = 0)) := rfl

variable (C : Calendar)

def monthDays (y : ℕ) : List ℕ :=
  [31, if C.leap y then 29 else 28, 31, 30, 31, 30, 31, 31, 30, 31, 30, 31]

def yearDays (y : ℕ) : ℕ := (C.monthDays y).sum

/-- There is such a date. -/
def Valid (d : CalendarDate) : Prop :=
  C.origin ≤ d.year ∧ ∃ n, (C.monthDays d.year)[d.month]? = some n ∧ 1 ≤ d.day ∧ d.day ≤ n

/-- The days of the months before month `m` of the year `y`. -/
def daysBeforeMonth (y m : ℕ) : ℕ := ((C.monthDays y).take m).sum

/-- Day `n` of a year with months of these lengths, counted from 1, is day `day` of month `m`. -/
def DayOf (months : List ℕ) (n m day : ℕ) : Prop :=
  ∃ l, months[m]? = some l ∧ 1 ≤ day ∧ day ≤ l ∧ (months.take m).sum + day = n

/-- The days of the years before `y`. -/
def daysBeforeYear (y : ℕ) : ℕ := ∑ i ∈ Finset.Ico C.origin y, C.yearDays i

/-- The number of a date, from 1 on. -/
def count (d : CalendarDate) : ℕ :=
  C.daysBeforeYear d.year + C.daysBeforeMonth d.year d.month + d.day

/-- The date of the following day. -/
def next (d : CalendarDate) : CalendarDate :=
  if d.day < (C.monthDays d.year).getD d.month 0 then { d with day := d.day + 1 }
  else if d.month < 11 then ⟨d.year, d.month + 1, 1⟩
  else ⟨d.year + 1, 0, 1⟩

/-- The date `k` days after the first day. -/
def dateOf (k : ℕ) : CalendarDate := C.next^[k] ⟨C.origin, 0, 1⟩

variable {C} {d d' : CalendarDate} {y m n k : ℕ}

/-! ## Months -/

@[simp] theorem length_monthDays : (C.monthDays y).length = 12 := rfl

theorem yearDays_eq : C.yearDays y = 365 + if C.leap y then 1 else 0 := by
  rw [yearDays, monthDays]
  cases C.leap y <;> rfl

theorem pos_of_monthDays (h : (C.monthDays y)[m]? = some n) : 1 ≤ n := by
  have hall : ∀ n ∈ C.monthDays y, 1 ≤ n := by
    rw [monthDays]
    cases C.leap y <;> decide
  exact hall n (List.mem_of_getElem? h)

theorem daysBeforeMonth_succ (h : (C.monthDays y)[m]? = some n) :
    C.daysBeforeMonth y (m + 1) = C.daysBeforeMonth y m + n := by
  rw [daysBeforeMonth, daysBeforeMonth, List.take_add_one, h, Option.toList_some, List.sum_append,
    List.sum_singleton]

@[simp] theorem daysBeforeMonth_zero : C.daysBeforeMonth y 0 = 0 := rfl

theorem daysBeforeMonth_twelve : C.daysBeforeMonth y 12 = C.yearDays y := rfl

theorem daysBeforeMonth_mono {m' : ℕ} (h : m ≤ m') :
    C.daysBeforeMonth y m ≤ C.daysBeforeMonth y m' := by
  obtain ⟨l, rfl⟩ := Nat.exists_eq_add_of_le h
  rw [daysBeforeMonth, daysBeforeMonth, List.take_add, List.sum_append]
  exact Nat.le_add_right _ _

theorem Valid.day_le (h : C.Valid d) :
    1 ≤ d.day ∧ C.daysBeforeMonth d.year d.month + d.day ≤
      C.daysBeforeMonth d.year (d.month + 1) := by
  obtain ⟨-, n, hn, hpos, hle⟩ := h
  rw [daysBeforeMonth_succ hn]
  omega

theorem Valid.month_lt (h : C.Valid d) : d.month < 12 := by
  obtain ⟨-, n, hn, -⟩ := h
  exact (List.getElem?_eq_some_iff.mp hn).1

theorem Valid.day_le_yearDays (h : C.Valid d) :
    C.daysBeforeMonth d.year d.month + d.day ≤ C.yearDays d.year :=
  h.day_le.2.trans (daysBeforeMonth_twelve ▸ daysBeforeMonth_mono h.month_lt)

/-! ## Years -/

theorem valid_newYear (h : C.origin ≤ y) : C.Valid ⟨y, 0, 1⟩ :=
  ⟨h, 31, rfl, le_rfl, (by decide : 1 ≤ 31)⟩

theorem daysBeforeYear_succ (h : C.origin ≤ y) :
    C.daysBeforeYear (y + 1) = C.daysBeforeYear y + C.yearDays y :=
  Finset.sum_Ico_succ_top h _

theorem daysBeforeYear_mono {y' : ℕ} (h : y ≤ y') : C.daysBeforeYear y ≤ C.daysBeforeYear y' :=
  Finset.sum_le_sum_of_subset (Finset.Ico_subset_Ico_right h)

/-! ## Numbers of dates -/

theorem count_lt_of_year_lt (h : C.Valid d) (h' : C.Valid d') (hyear : d.year < d'.year) :
    C.count d < C.count d' := by
  have hsucc := daysBeforeYear_succ h.1
  have hmono : C.daysBeforeYear (d.year + 1) ≤ C.daysBeforeYear d'.year := daysBeforeYear_mono hyear
  have hle := h.day_le_yearDays
  have hpos := h'.day_le.1
  rw [count, count]
  omega

theorem count_lt_of_month_lt (h : C.Valid d) (h' : C.Valid d') (hyear : d.year = d'.year)
    (hmonth : d.month < d'.month) : C.count d < C.count d' := by
  have hmono : C.daysBeforeMonth d.year (d.month + 1) ≤ C.daysBeforeMonth d.year d'.month :=
    daysBeforeMonth_mono hmonth
  have hle := h.day_le.2
  have hpos := h'.day_le.1
  rw [count, count, ← hyear]
  omega

/-- **A date is known by its number.** -/
theorem eq_of_count_eq (h : C.Valid d) (h' : C.Valid d') (hcount : C.count d = C.count d') :
    d = d' := by
  have hyear : d.year = d'.year := by
    rcases Nat.lt_trichotomy d.year d'.year with hlt | heq | hgt
    · exact absurd hcount (count_lt_of_year_lt h h' hlt).ne
    · exact heq
    · exact absurd hcount (count_lt_of_year_lt h' h hgt).ne'
  have hmonth : d.month = d'.month := by
    rcases Nat.lt_trichotomy d.month d'.month with hlt | heq | hgt
    · exact absurd hcount (count_lt_of_month_lt h h' hyear hlt).ne
    · exact heq
    · exact absurd hcount (count_lt_of_month_lt h' h hyear.symm hgt).ne'
  have hday : d.day = d'.day := by
    rw [count, count, ← hyear, ← hmonth] at hcount
    omega
  exact CalendarDate.ext hyear hmonth hday

/-- **The following day** is a date, and has the next number. -/
theorem count_next (h : C.Valid d) : C.Valid (C.next d) ∧ C.count (C.next d) = C.count d + 1 := by
  obtain ⟨horigin, n, hn, hpos, hle⟩ := h
  have hget : (C.monthDays d.year).getD d.month 0 = n := by
    rw [List.getD_eq_getElem?_getD, hn, Option.getD_some]
  have hmonth := daysBeforeMonth_succ hn
  rw [next, hget]
  split
  · next hlt => exact ⟨⟨horigin, n, hn, by dsimp only; omega, by dsimp only; omega⟩, rfl⟩
  · next hlast =>
    obtain rfl : d.day = n := by omega
    split
    -- the month ends: the first day of the next month
    · next helf =>
      obtain ⟨n', hn'⟩ : ∃ n', (C.monthDays d.year)[d.month + 1]? = some n' :=
        ⟨_, List.getElem?_eq_getElem (by rw [length_monthDays]; omega)⟩
      refine ⟨⟨horigin, n', hn', le_rfl, pos_of_monthDays hn'⟩, ?_⟩
      rw [count, count]
      dsimp only
      rw [hmonth]
      omega
    -- the year ends: the first day of the next year
    · next hdec =>
      have htwelve : d.month + 1 = 12 := by
        have := (List.getElem?_eq_some_iff.mp hn).1
        rw [length_monthDays] at this
        omega
      refine ⟨valid_newYear (by omega), ?_⟩
      rw [htwelve, daysBeforeMonth_twelve] at hmonth
      rw [count, count]
      dsimp only
      rw [daysBeforeYear_succ horigin, daysBeforeMonth_zero]
      omega

theorem count_dateOf (C : Calendar) (k : ℕ) :
    C.Valid (C.dateOf k) ∧ C.count (C.dateOf k) = k + 1 := by
  induction k with
  | zero =>
    refine ⟨valid_newYear le_rfl, ?_⟩
    rw [dateOf, Function.iterate_zero_apply, count, daysBeforeYear, Finset.Ico_self,
      Finset.sum_empty, daysBeforeMonth_zero]
  | succ k ih =>
    have hnext := count_next ih.1
    rw [dateOf, Function.iterate_succ_apply', ← dateOf]
    exact ⟨hnext.1, by rw [hnext.2, ih.2]⟩

/-- **The date of a day** is the valid date with its number. -/
theorem eq_dateOf_iff : d = C.dateOf k ↔ C.Valid d ∧ C.count d = k + 1 := by
  constructor
  · rintro rfl
    exact count_dateOf C k
  · rintro ⟨hvalid, hcount⟩
    obtain ⟨hvalid', hcount'⟩ := count_dateOf C k
    exact eq_of_count_eq hvalid hvalid' (hcount.trans hcount'.symm)

/-- The date of a day is in the year with as many days before it, and has the month and the day of
the day of the year. -/
theorem eq_dateOf_iff_dayOf : d = C.dateOf k ↔
    C.origin ≤ d.year ∧ ∃ n, C.daysBeforeYear d.year + n = k + 1 ∧
      DayOf (C.monthDays d.year) n d.month d.day := by
  rw [eq_dateOf_iff]
  constructor
  · rintro ⟨⟨horigin, l, hl, hpos, hle⟩, hcount⟩
    exact ⟨horigin, _, (Nat.add_assoc _ _ _).symm.trans hcount, l, hl, hpos, hle, rfl⟩
  · rintro ⟨horigin, n, hcount, l, hl, hpos, hle, rfl⟩
    exact ⟨⟨horigin, l, hl, hpos, hle⟩, (Nat.add_assoc _ _ _).trans hcount⟩

/-! ## Two calendars -/

variable {C' : Calendar}

theorem monthDays_congr (h : C.leap y = C'.leap y) : C.monthDays y = C'.monthDays y := by
  rw [monthDays, monthDays, h]

/-- A leap day more makes the months before longer. -/
theorem daysBeforeMonth_le (h : C.leap y = true → C'.leap y = true) :
    C.daysBeforeMonth y m ≤ C'.daysBeforeMonth y m := by
  rw [daysBeforeMonth, daysBeforeMonth, monthDays, monthDays]
  cases hC : C.leap y with
  | true => rw [h hC]
  | false =>
    match m with
    | 0 => exact le_rfl
    | 1 => exact le_rfl
    | m + 2 =>
      simp only [List.take_succ_cons, List.sum_cons, Bool.false_eq_true, if_false]
      split <;> omega

theorem daysBeforeYear_congr (horigin : C.origin = C'.origin)
    (h : ∀ i, C.origin ≤ i → i < y → C.leap i = C'.leap i) :
    C.daysBeforeYear y = C'.daysBeforeYear y := by
  rw [daysBeforeYear, daysBeforeYear, ← horigin]
  refine Finset.sum_congr rfl fun i hi ↦ ?_
  obtain ⟨hle, hlt⟩ := Finset.mem_Ico.mp hi
  rw [yearDays_eq, yearDays_eq, h i hle hlt]

/-- Every leap year more makes the count of the years longer. -/
theorem daysBeforeYear_lt {z : ℕ} (horigin : C.origin = C'.origin)
    (hsub : ∀ i, C.leap i = true → C'.leap i = true) (hz : C.origin ≤ z) (hzy : z < y)
    (hleap : C.leap z = false) (hleap' : C'.leap z = true) :
    C.daysBeforeYear y < C'.daysBeforeYear y := by
  rw [daysBeforeYear, daysBeforeYear, ← horigin]
  refine Finset.sum_lt_sum (fun i _ ↦ ?_) ⟨z, Finset.mem_Ico.mpr ⟨hz, hzy⟩, ?_⟩
  · rw [yearDays_eq, yearDays_eq]
    cases hi : C.leap i with
    | false => simp
    | true => simp [hsub i hi]
  · rw [yearDays_eq, yearDays_eq, hleap, hleap']
    simp

end Calendar
