import Mathlib.Algebra.Order.Ring.Int
import Mathlib.Tactic.Linarith

/-!
# Clock readings and timer intervals

A `Time` is an integer number of milliseconds (`_timeVal`, an `int64_t`); the instants of the clock
are counted in microseconds. A reading of the clock is truncated, `Time.now`, and the interval
handed to the kernel for a deadline is computed from such a truncated reading,
`Time.timeIntervalFromNow`, with a one-microsecond interval for deadlines that are not at least a
millisecond away.

The readings themselves fit 64 bits for some hundred million years to come. The difference between
a deadline and a reading need not, nor the sum of a reading and a duration, so these are computed
by `int64`, and what is said of them names the range in which it holds.

The wall clock that `gettimeofday` reads and the monotonic clock that a timer descriptor runs on
are taken to advance in step, so one `clock` serves for both.
-/

namespace Copnet

/-! ## 64-bit integers -/

/-- The value is one of an `int64_t`. -/
def IsInt64 (n : ℤ) : Prop := -2 ^ 63 ≤ n ∧ n < 2 ^ 63

instance (n : ℤ) : Decidable (IsInt64 n) := by unfold IsInt64; infer_instance

/-- The `int64_t` that a sum or a difference `n` comes out as. The language leaves an overflow
undefined; here it wraps around, as in two's complement. -/
def int64 (n : ℤ) : ℤ := n.bmod (2 ^ 64)

theorem isInt64_int64 (n : ℤ) : IsInt64 (int64 n) := by
  rw [IsInt64, int64, Int.bmod_def]
  split <;> omega

theorem int64_of_isInt64 {n : ℤ} (h : IsInt64 n) : int64 n = n := by
  obtain ⟨hlow, hhigh⟩ := h
  exact Int.bmod_eq_of_le (by omega) (by omega)

/-- Only an overflow at the lower end makes a value larger. -/
theorem int64_le {n : ℤ} (h : -2 ^ 63 ≤ n) : int64 n ≤ n := by
  rw [int64, Int.bmod_def]
  split <;> omega

/-- Only an overflow at the upper end makes a value smaller. -/
theorem le_int64 {n : ℤ} (h : n < 2 ^ 63) : n ≤ int64 n := by
  rw [int64, Int.bmod_def]
  split <;> omega

/-! ## Intervals -/

structure Timespec where
  /-- Whole seconds. -/
  tvSec : ℤ
  /-- The nanoseconds on top of them. -/
  tvNsec : ℤ
deriving DecidableEq

namespace Timespec

/-- What the kernel accepts: no negative part, and less than a second of nanoseconds. -/
def Valid (ts : Timespec) : Prop := 0 ≤ ts.tvSec ∧ 0 ≤ ts.tvNsec ∧ ts.tvNsec < 1000000000

instance (ts : Timespec) : Decidable ts.Valid := by unfold Valid; infer_instance

/-- The zero interval, which disarms a timer. -/
def zero : Timespec := ⟨0, 0⟩

/-- The interval that `timeIntervalFromNow` uses for deadlines within the clock's precision. -/
def immediate : Timespec := ⟨0, 1000⟩

/-- The length in microseconds. -/
def micros (ts : Timespec) : ℤ := ts.tvSec * 1000000 + ts.tvNsec / 1000

@[simp] theorem micros_immediate : immediate.micros = 1 := rfl

end Timespec

namespace Time

/-- `Time::now()` at the instant `clock`. -/
def now (clock : ℤ) : ℤ :=
  -- gettimeofday splits the instant into seconds and microseconds
  let tvSec := clock / 1000000
  let tvUsec := clock % 1000000
  tvSec * 1000 + tvUsec / 1000

theorem now_eq (clock : ℤ) : now clock = clock / 1000 := by
  simp only [now]
  omega

theorem now_mono {clock clock' : ℤ} (h : clock ≤ clock') : now clock ≤ now clock' := by
  rw [now_eq, now_eq]
  omega

theorem lt_now_succ (clock : ℤ) : clock < 1000 * now clock + 1000 := by
  rw [now_eq]
  omega

/-- `Time::timeIntervalFromNow()` of the time `timeVal`, called at the instant `clock`. The local
variable of the source is called `microseconds` although it counts milliseconds. -/
def timeIntervalFromNow (timeVal clock : ℤ) : Timespec :=
  let microseconds := int64 (timeVal - now clock)
  if microseconds < 1 then .immediate
  else ⟨microseconds.tdiv 1000, (microseconds.tmod 1000) * 1000 * 1000⟩

section Interval

variable {timeVal clock : ℤ}

theorem timeIntervalFromNow_of_lt_one (h : int64 (timeVal - now clock) < 1) :
    timeIntervalFromNow timeVal clock = .immediate := if_pos h

theorem timeIntervalFromNow_of_one_le (h : 1 ≤ int64 (timeVal - now clock)) :
    timeIntervalFromNow timeVal clock =
      ⟨int64 (timeVal - now clock) / 1000, int64 (timeVal - now clock) % 1000 * 1000 * 1000⟩ := by
  have hpos : 0 ≤ int64 (timeVal - now clock) := by omega
  simp only [timeIntervalFromNow]
  rw [if_neg (by omega), Int.tdiv_eq_ediv_of_nonneg hpos, Int.tmod_eq_emod_of_nonneg hpos]

theorem timeIntervalFromNow_now (clock : ℤ) :
    timeIntervalFromNow (now clock) clock = .immediate := by
  refine timeIntervalFromNow_of_lt_one ?_
  rw [sub_self]
  decide

theorem timeIntervalFromNow_valid (timeVal clock : ℤ) :
    (timeIntervalFromNow timeVal clock).Valid := by
  rcases lt_or_ge (int64 (timeVal - now clock)) 1 with h | h
  · rw [timeIntervalFromNow_of_lt_one h]
    decide
  · rw [timeIntervalFromNow_of_one_le h]
    refine ⟨?_, ?_, ?_⟩ <;> dsimp only <;> omega

/-- None of them is the zero interval, so programming a timer never disarms it. -/
theorem timeIntervalFromNow_ne_zero (timeVal clock : ℤ) :
    timeIntervalFromNow timeVal clock ≠ .zero := by
  rcases lt_or_ge (int64 (timeVal - now clock)) 1 with h | h
  · rw [timeIntervalFromNow_of_lt_one h]
    decide
  · rw [timeIntervalFromNow_of_one_le h, Timespec.zero, ne_eq, Timespec.mk.injEq]
    omega

theorem micros_of_one_le (h : 1 ≤ int64 (timeVal - now clock)) :
    (timeIntervalFromNow timeVal clock).micros = 1000 * int64 (timeVal - now clock) := by
  rw [timeIntervalFromNow_of_one_le h, Timespec.micros]
  dsimp only
  omega

theorem nanos_eq (timeVal clock : ℤ) :
    (timeIntervalFromNow timeVal clock).tvSec * 1000000000 +
        (timeIntervalFromNow timeVal clock).tvNsec =
      1000 * (timeIntervalFromNow timeVal clock).micros := by
  rcases lt_or_ge (int64 (timeVal - now clock)) 1 with h | h
  · rw [timeIntervalFromNow_of_lt_one h]
    rfl
  · rw [timeIntervalFromNow_of_one_le h, Timespec.micros]
    dsimp only
    omega

/-- The deadline is due by every reading of the clock after the interval, unless it was too far
ahead. -/
theorem le_now_of_add_micros_le {clock' : ℤ} (hrange : timeVal - now clock < 2 ^ 63)
    (h : clock + (timeIntervalFromNow timeVal clock).micros ≤ clock') : timeVal ≤ now clock' := by
  have hle := le_int64 hrange
  rcases lt_or_ge (int64 (timeVal - now clock)) 1 with hdue | hlate
  · rw [timeIntervalFromNow_of_lt_one hdue, Timespec.micros_immediate] at h
    exact (show timeVal ≤ now clock by omega).trans (now_mono (by omega))
  · rw [micros_of_one_le hlate] at h
    rw [now_eq] at h hle
    rw [now_eq]
    omega

/-- An interval programmed for `timeVal` at `clock` ends less than a millisecond after the later
of the two, unless `timeVal` was over too long ago. -/
theorem add_micros_lt (hrange : -2 ^ 63 ≤ timeVal - now clock) :
    clock + (timeIntervalFromNow timeVal clock).micros < max clock (1000 * timeVal) + 1000 := by
  have hle := int64_le hrange
  rcases lt_or_ge (int64 (timeVal - now clock)) 1 with h | h
  · rw [timeIntervalFromNow_of_lt_one h, Timespec.micros_immediate]
    have := le_max_left clock (1000 * timeVal)
    omega
  · rw [micros_of_one_le h]
    have := le_max_right clock (1000 * timeVal)
    have := lt_now_succ clock
    omega

end Interval

end Time

end Copnet
