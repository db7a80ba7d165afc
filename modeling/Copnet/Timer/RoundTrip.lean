import Copnet.Timer.LocalTime
import Mathlib.Data.Prod.Lex

/-!
# Local time can be undone

The fields that `Time::toLocalTime` stores are counted back to seconds: the years and the months
before the date, its day, and the time of the day. In the calendar of the code this gives the
instant that was split, so no two instants have the same fields.

The count respects the order in which fields are compared, the year first and the second last. That
is where the fields must be valid: a day or an hour too many would carry over into the field before
it.
-/

namespace Copnet

namespace Tm

def date (tm : Tm) : CalendarDate := ⟨1900 + tm.tmYear, tm.tmMon, tm.tmMday⟩

/-- There are such a date and such a time of the day. -/
structure Valid (C : Calendar) (tm : Tm) : Prop where
  /-- The month is one of the year, and the day one of the month. -/
  date : C.Valid tm.date
  hour_lt : tm.tmHour < 24
  min_lt : tm.tmMin < 60
  sec_lt : tm.tmSec < 60

def daySecond (tm : Tm) : ℕ := tm.tmHour * 3600 + tm.tmMin * 60 + tm.tmSec

/-- The seconds from the first instant of the calendar on. -/
def second (C : Calendar) (tm : Tm) : ℕ := (C.count tm.date - 1) * 86400 + tm.daySecond

/-- The fields in the order in which they are compared. -/
def fields (tm : Tm) : ℕ ×ₗ ℕ ×ₗ ℕ ×ₗ ℕ ×ₗ ℕ ×ₗ ℕ :=
  toLex (tm.tmYear, toLex (tm.tmMon, toLex (tm.tmMday,
    toLex (tm.tmHour, toLex (tm.tmMin, tm.tmSec)))))

theorem fields_injective : Function.Injective fields := by
  rintro ⟨sec, min, hour, mday, mon, year⟩ ⟨sec', min', hour', mday', mon', year'⟩ h
  simp only [fields, toLex_inj, Prod.mk.injEq] at h
  obtain ⟨rfl, rfl, rfl, rfl, rfl, rfl⟩ := h
  rfl

variable {C : Calendar} {tm tm' : Tm}

theorem Valid.daySecond_lt (h : tm.Valid C) : tm.daySecond < 86400 := by
  have := h.hour_lt
  have := h.min_lt
  have := h.sec_lt
  rw [daySecond]
  omega

theorem second_lt_of_count_lt (h : tm.Valid C) (hlt : C.count tm.date < C.count tm'.date) :
    tm.second C < tm'.second C := by
  have hday := h.daySecond_lt
  have hpos : 1 ≤ C.count tm.date := h.date.day_le.1.trans (Nat.le_add_left _ _)
  rw [second, second]
  omega

theorem second_lt_of_fields_lt (h : tm.Valid C) (h' : tm'.Valid C)
    (hlt : tm.fields < tm'.fields) : tm.second C < tm'.second C := by
  simp only [fields, Prod.Lex.toLex_lt_toLex] at hlt
  rcases hlt with hyear | ⟨hyear, hmon | ⟨hmon, hmday | ⟨hmday, htime⟩⟩⟩
  · exact second_lt_of_count_lt h (Calendar.count_lt_of_year_lt h.date h'.date
      (Nat.add_lt_add_left hyear 1900))
  · exact second_lt_of_count_lt h (Calendar.count_lt_of_month_lt h.date h'.date
      (congrArg (1900 + ·) hyear) hmon)
  · refine second_lt_of_count_lt h ?_
    rw [Calendar.count, Calendar.count, date, date]
    dsimp only
    rw [hyear, hmon]
    exact Nat.add_lt_add_left hmday _
  -- on one day the time of the day decides
  · have hdate : tm.date = tm'.date := by rw [date, date, hyear, hmon, hmday]
    have := h.min_lt
    have := h.sec_lt
    have := h'.min_lt
    have := h'.sec_lt
    rw [second, second, hdate, daySecond, daySecond]
    omega

/-- Fields are compared in their order. -/
instance : LinearOrder Tm := .lift' fields fields_injective

theorem second_strictMonoOn (C : Calendar) : StrictMonoOn (second C) {tm | tm.Valid C} :=
  fun _ h _ h' hlt ↦ second_lt_of_fields_lt h h' hlt

theorem date_ofSecond (horigin : 1900 ≤ C.origin) (n : ℕ) :
    (ofSecond C n).date = C.dateOf (n / 86400) := by
  obtain ⟨⟨hle, -⟩, -⟩ := Calendar.count_dateOf C (n / 86400)
  have hyear : 1900 + ((C.dateOf (n / 86400)).year - 1900) = (C.dateOf (n / 86400)).year := by
    omega
  rw [date, ofSecond]
  dsimp only
  rw [hyear]

/-- **Splitting an instant is undone by counting.** -/
theorem second_ofSecond (horigin : 1900 ≤ C.origin) (n : ℕ) :
    (ofSecond C n).Valid C ∧ (ofSecond C n).second C = n := by
  obtain ⟨hvalid, hcount⟩ := Calendar.count_dateOf C (n / 86400)
  have hdate := date_ofSecond horigin n
  refine ⟨⟨hdate ▸ hvalid, Nat.mod_lt _ (by decide), Nat.mod_lt _ (by decide),
    Nat.mod_lt _ (by decide)⟩, ?_⟩
  rw [second, hdate, hcount, daySecond, ofSecond]
  dsimp only
  omega

end Tm

/-- The instants that `toLocalTime` splits as it should: from the beginning of 1970 on, with hours
that fit 32 bits. -/
def Time.InRange (second timezone : ℤ) : Prop :=
  0 ≤ second - timezone ∧ (second - timezone) / 3600 < 2 ^ 32

instance (second timezone : ℤ) : Decidable (Time.InRange second timezone) := by
  unfold Time.InRange
  infer_instance

theorem Time.leap_of_leapDay {tm : Tm} (h : tm.Valid everyFourth) (hmon : tm.tmMon = 1)
    (hmday : tm.tmMday = 29) : tm.tmYear % 4 = 0 := by
  obtain ⟨-, l, hl, -, hle⟩ := h.date
  rw [Tm.date] at hl hle
  dsimp only at hl hle
  rw [hmon] at hl
  by_contra hcommon
  rw [monthDays_of_common (by rwa [and_three])] at hl
  obtain rfl : 28 = l := Option.some.inj hl
  omega

theorem Time.toLocalTime_of_inRange {second timezone : ℤ} (h : InRange second timezone) :
    ∃ tm, toLocalTime second timezone = some tm ∧ tm.Valid everyFourth ∧ 70 ≤ tm.tmYear ∧
      (tm.second everyFourth : ℤ) = second - timezone := by
  obtain ⟨hpos, hhours⟩ := h
  obtain ⟨hvalid, hcount⟩ :=
    Tm.second_ofSecond (C := everyFourth) (by decide) (second - timezone).toNat
  refine ⟨_, toLocalTime_eq (by omega), hvalid, ?_, by rw [hcount, Int.toNat_of_nonneg hpos]⟩
  have horigin : 1970 ≤ 1900 + (Tm.ofSecond everyFourth (second - timezone).toNat).tmYear :=
    hvalid.date.1
  omega

/-- **Local time can be undone.** For all instants from the beginning of 1970 on whose hours fit 32
bits, in the calendar whose leap years are those with `tm_year` divisible by four: `toLocalTime`
stores a valid date and time of the day, not before 1970 and on 29 February in a leap year only,
and the seconds counted up to it give the instant back. Two instants have the same fields only if
they are equal, and their fields are in lexicographic order exactly if they are. -/
theorem toLocalTime_undone (second timezone second' timezone' : ℤ)
    (h : Time.InRange second timezone) (h' : Time.InRange second' timezone') :
    (∀ tmYear, Time.everyFourth.leap (1900 + tmYear) = true ↔ tmYear % 4 = 0) ∧
    ∃ tm tm', Time.toLocalTime second timezone = some tm ∧
      Time.toLocalTime second' timezone' = some tm' ∧
      (tm.Valid Time.everyFourth ∧ 70 ≤ tm.tmYear ∧ tm.tmMon ≤ 11 ∧
        (tm.tmMon = 1 → tm.tmMday = 29 → tm.tmYear % 4 = 0)) ∧
      (tm.second Time.everyFourth : ℤ) = second - timezone ∧
      (tm = tm' ↔ second - timezone = second' - timezone') ∧
      (tm.fields < tm'.fields ↔ second - timezone < second' - timezone') := by
  have hleap : ∀ tmYear, Time.everyFourth.leap (1900 + tmYear) = true ↔ tmYear % 4 = 0 := by
    intro tmYear
    rw [Time.leap_iff, Time.and_three]
  obtain ⟨tm, htm, hvalid, hyear, hsecond⟩ := Time.toLocalTime_of_inRange h
  obtain ⟨tm', htm', hvalid', -, hsecond'⟩ := Time.toLocalTime_of_inRange h'
  have hmono := Tm.second_strictMonoOn Time.everyFourth
  refine ⟨hleap, tm, tm', htm, htm', ⟨hvalid, hyear, Nat.le_of_lt_succ hvalid.date.month_lt,
    Time.leap_of_leapDay hvalid⟩, hsecond, ?_, ?_⟩
  · rw [← hsecond, ← hsecond', Nat.cast_inj]
    exact (hmono.injOn.eq_iff hvalid hvalid').symm
  · rw [← hsecond, ← hsecond', Nat.cast_lt]
    exact (hmono.lt_iff_lt hvalid hvalid').symm

/-- The last second of 29 February 2000 and the first of 1 March, in different zones. -/
theorem toLocalTime_undone_in_2000 :
    ∃ tm tm', Time.toLocalTime 951872399 3600 = some tm ∧
      Time.toLocalTime 951868800 0 = some tm' ∧
      (tm.second Time.everyFourth : ℤ) = 951868799 ∧ tm ≠ tm' ∧ tm.fields < tm'.fields := by
  obtain ⟨-, tm, tm', htm, htm', -, hsecond, heq, hlt⟩ :=
    toLocalTime_undone 951872399 3600 951868800 0 (by decide) (by decide)
  exact ⟨tm, tm', htm, htm', hsecond, fun h ↦ absurd (heq.mp h) (by decide), hlt.mpr (by decide)⟩

end Copnet
