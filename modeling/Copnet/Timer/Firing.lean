import Copnet.Timer.Coverage
import Copnet.Timer.Delivery

/-!
# A firing finds its sleeper

The interval that a deadline gets is computed from readings in milliseconds and handed over in
seconds and nanoseconds. It is never zero, and it ends in the millisecond of the deadline or, by
less than a millisecond, in the next. So by the time the descriptor fires for the top of the heap,
the reading of the clock has reached the deadline of the top, and `getExpiredCoroutines` takes it.

The descriptor may also fire for a wake-up, with nothing due. But a call that finds nothing due has
read the descriptor and programs it for the top, and until the next wake-up the descriptor is
programmed for the top of the heap only: the next firing is not in vain. `Fruitful` is what holds in
between; it is kept by all steps but wake-ups, for as long as nothing is put out.

All this is about deadlines whose distance from the instant of arming is an `int64_t`.
-/

open Transition

namespace Copnet

/-! ## What is due -/

namespace TimerHeap

variable {h h' : TimerHeap} {e : ℤ × Addr} {now clock clock' : ℤ}

theorem mem_expired : e ∈ h.expired now ↔ e ∈ h.entries ∧ e.1 ≤ now := by
  rw [expired, (takeWhile_dropWhile_of_sorted h.sorted now).1, List.mem_filter, decide_eq_true_iff]

def Due (h : TimerHeap) (clock : ℤ) : Prop := ∃ e ∈ h.entries, e.1 ≤ Time.now clock

theorem Due.mono (hdue : h.Due clock) (hle : clock ≤ clock') : h.Due clock' := by
  obtain ⟨e, he, hnow⟩ := hdue
  exact ⟨e, he, hnow.trans (Time.now_mono hle)⟩

theorem Due.push (hdue : h.Due clock) (e : ℤ × Addr) : (h.push e).Due clock := by
  obtain ⟨e', he', hnow⟩ := hdue
  exact ⟨e', mem_push.mpr (.inr he'), hnow⟩

theorem Due.expired_ne_nil (hdue : h.Due clock) : h.expired (Time.now clock) ≠ [] := by
  obtain ⟨e, he, hnow⟩ := hdue
  exact List.ne_nil_of_mem (mem_expired.mpr ⟨he, hnow⟩)

theorem entries_popExpired (hnone : h.expired now = []) :
    (h.popExpired now).entries = h.entries := by
  have hsplit : h.expired now ++ (h.popExpired now).entries = h.entries :=
    List.takeWhile_append_dropWhile
  rwa [hnone, List.nil_append] at hsplit

end TimerHeap

/-! ## The interval -/

/-- The interval `ts` leads from the instant `clock` to the deadline `timeVal`: it is one that arms
a timer, in a whole number of microseconds, and it ends with the deadline due, less than a
millisecond after the later of the two. -/
structure Timespec.Tight (ts : Timespec) (timeVal clock : ℤ) : Prop where
  ne_zero : ts ≠ .zero
  valid : ts.Valid
  nanos_eq : ts.tvSec * 1000000000 + ts.tvNsec = 1000 * ts.micros
  due : timeVal ≤ (clock + ts.micros) / 1000
  lt : clock + ts.micros < max clock (1000 * timeVal) + 1000

theorem Time.timeIntervalFromNow_tight {timeVal clock : ℤ}
    (hrange : IsInt64 (timeVal - now clock)) :
    (timeIntervalFromNow timeVal clock).Tight timeVal clock where
  ne_zero := timeIntervalFromNow_ne_zero timeVal clock
  valid := timeIntervalFromNow_valid timeVal clock
  nanos_eq := Time.nanos_eq timeVal clock
  due := now_eq _ ▸ le_now_of_add_micros_le hrange.2 le_rfl
  lt := add_micros_lt hrange.1

/-! ## The top of the heap -/

/-- If the descriptor is armed for the top of the heap, as programmed for its deadline `timeVal` at
the instant `clock`, the call of `getExpiredCoroutines` that follows the firing takes the top. -/
def TopExpires (timeVal clock : ℤ) : Prop :=
  ∀ (s t u v : TimerState) (pCo : Addr) (tr : List (TimerAct × List Addr)) (out out' : List Addr),
    s.timer.fd.armed = some ⟨clock, Time.timeIntervalFromNow timeVal clock⟩ →
    s.timer.heap.top? = some (timeVal, pCo) → timerStep s .expire = some (t, out) →
    Run timerMachine (fun _ act ↦ act ≠ .getExpired) t tr u →
    timerStep u .getExpired = some (v, out') →
      (timeVal, pCo) ∈ u.timer.heap.expired (Time.now u.clock) ∧ pCo ∈ out'

theorem mem_entries_of_step {s s' : TimerState} {a : TimerAct} {out : List Addr} {e : ℤ × Addr}
    {clock : ℤ} (h : e ∈ s.timer.heap.entries ∧ clock ≤ s.clock) (ha : a ≠ .getExpired)
    (hs : timerStep s a = some (s', out)) :
    e ∈ s'.timer.heap.entries ∧ clock ≤ s'.clock := by
  obtain ⟨he, hclock⟩ := h
  cases TimerStep.of_step hs with
  | runAt hpc => exact ⟨TimerHeap.mem_push.mpr (.inr he), hclock⟩
  | runAfter hpc => exact ⟨TimerHeap.mem_push.mpr (.inr he), hclock⟩
  | arm hpc => exact ⟨by rwa [Timer.heap_rearmFor], hclock⟩
  | getExpired hpc => exact absurd rfl ha
  | read hpc => exact ⟨he, hclock⟩
  | rearm hpc => exact ⟨by rwa [Timer.heap_rearm], hclock⟩
  | wakeUp => exact ⟨he, hclock⟩
  | expire harmed hdue => exact ⟨he, hclock⟩
  | tick => exact ⟨he, by dsimp only; omega⟩

theorem topExpires {timeVal clock : ℤ} (hrange : IsInt64 (timeVal - Time.now clock)) :
    TopExpires timeVal clock := by
  intro s t u v pCo tr out out' harmed htop hexpire hrun hget
  have hfired : (timeVal, pCo) ∈ t.timer.heap.entries ∧
      clock + (Time.timeIntervalFromNow timeVal clock).micros ≤ t.clock := by
    cases TimerStep.of_step hexpire with
    | expire harmed' hdue =>
      obtain rfl := Option.some.inj (harmed.symm.trans harmed')
      exact ⟨List.mem_of_mem_head? htop, hdue⟩
  obtain ⟨hmem, hclock⟩ := hrun.invariant hfired mem_entries_of_step
  have hexpired : (timeVal, pCo) ∈ u.timer.heap.expired (Time.now u.clock) :=
    TimerHeap.mem_expired.mpr ⟨hmem, Time.le_now_of_add_micros_le hrange.2 hclock⟩
  cases TimerStep.of_step hget with
  | getExpired hpc => exact ⟨hexpired, List.mem_map_of_mem hexpired⟩

/-! ## Firings in vain -/

theorem armed_of_readable {s : TimerState} (h : Reachable timerMachine Always s) :
    s.timer.fd.readable = true → s.timer.fd.armed = none := by
  refine h.invariant (P := fun s ↦ s.timer.fd.readable = true → s.timer.fd.armed = none) ?_ ?_
  · rintro s ⟨htimer, -⟩
    rw [htimer]
    exact fun _ ↦ rfl
  · intro s s' a out hinv _ hs
    cases TimerStep.of_step hs with
    | runAt hpc => exact hinv
    | runAfter hpc => exact hinv
    | arm hpc =>
      dsimp only
      rw [Timer.rearmFor]
      split
      · simp
      · exact hinv
    | getExpired hpc => exact hinv
    | read hpc => simp [TimerFd.read]
    | rearm hpc =>
      dsimp only
      rw [Timer.rearm]
      split
      · simp
      · exact hinv
    | wakeUp => simp
    | expire harmed hdue => exact fun _ ↦ rfl
    | tick => exact hinv

/-- The step is no wake-up, and it re-arms the descriptor for no deadline out of range. -/
def Undisturbed (s : TimerState) (a : TimerAct) : Prop :=
  a ≠ .wakeUp ∧ ∀ d ∈ s.rearmedFor a, IsInt64 (d - Time.now s.clock)

instance (s : TimerState) (a : TimerAct) : Decidable (Undisturbed s a) := by
  unfold Undisturbed
  infer_instance

/-- Whatever the descriptor fires for is due when it does. -/
structure Fruitful (s : TimerState) : Prop where
  /-- When the armed expiry comes due, so has a sleeper. -/
  armed : ∀ a, s.timer.fd.armed = some a → s.timer.heap.Due a.fireAt
  /-- An expiry that waits to be read is about to be, or a sleeper is due. -/
  readable : s.timer.fd.readable = true → s.pc = .read ∨ s.timer.heap.Due s.clock

namespace Fruitful

variable {s s' t u v : TimerState}

/-- Outside of the read, an expiry waits only if a sleeper is due. -/
theorem due (h : Fruitful s) (hpc : s.pc ≠ .read) (hread : s.timer.fd.readable = true) :
    s.timer.heap.Due s.clock := (h.readable hread).resolve_left hpc

theorem of_top {e : ℤ × Addr} (htop : s.timer.heap.top? = some e)
    (hrange : IsInt64 (e.1 - Time.now s.clock)) (pc : TimerPc) :
    Fruitful { s with timer := s.timer.resetTimeOfTimefd s.clock e.1, pc } where
  armed a ha := by
    rw [Timer.fd_resetTimeOfTimefd] at ha
    obtain rfl := Option.some.inj ha
    exact ⟨e, List.mem_of_mem_head? htop, Time.le_now_of_add_micros_le hrange.2 le_rfl⟩
  readable hread := by
    rw [Timer.fd_resetTimeOfTimefd] at hread
    exact absurd hread Bool.false_ne_true

theorem push (h : Fruitful s) (hpc : s.pc ≠ .read) (time : ℤ) (pCo : Addr) (pc : TimerPc) :
    Fruitful { s with timer := s.timer.push time pCo, pc } where
  armed a ha := (h.armed a ha).push _
  readable hread := .inr ((h.due hpc hread).push _)

theorem step {a : TimerAct} (h : Fruitful s) (ha : Undisturbed s a)
    (hs : timerStep s a = some (s', [])) : Fruitful s' := by
  generalize hout : ([] : List Addr) = out at hs
  cases TimerStep.of_step hs with
  | runAt hpc => exact h.push (by simp [hpc]) _ _ _
  | runAfter hpc => exact h.push (by simp [hpc]) _ _ _
  | @arm time hpc =>
    rw [Timer.rearmFor]
    split
    · next htop =>
      obtain ⟨e, he, rfl⟩ := Option.map_eq_some_iff.mp htop
      exact of_top he (ha.2 e.1 (by simp [TimerState.rearmedFor, hpc, he])) .idle
    · exact ⟨h.armed, fun hread ↦ .inr (h.due (by simp [hpc]) hread)⟩
  -- nothing is put out, so the heap stays as it is
  | getExpired hpc =>
    have hnone : s.timer.heap.expired (Time.now s.clock) = [] := List.map_eq_nil_iff.mp hout.symm
    have hheap : ∀ clock, (s.timer.heap.popExpired (Time.now s.clock)).Due clock ↔
        s.timer.heap.Due clock := by
      intro clock
      rw [TimerHeap.Due, TimerHeap.entries_popExpired hnone, TimerHeap.Due]
    exact ⟨fun a ha ↦ (hheap _).mpr (h.armed a ha), fun _ ↦ .inl rfl⟩
  | read hpc => exact ⟨h.armed, fun hread ↦ absurd hread Bool.false_ne_true⟩
  | rearm hpc =>
    rw [Timer.rearm]
    split
    · next e he => exact of_top he (ha.2 e.1 (by simp [TimerState.rearmedFor, he])) .idle
    · exact ⟨h.armed, fun hread ↦ .inr (h.due (by simp [hpc]) hread)⟩
  | wakeUp => exact absurd rfl ha.1
  | expire harmed hdue =>
    exact ⟨fun _ ha ↦ absurd ha (by simp), fun _ ↦ .inr ((h.armed _ harmed).mono hdue)⟩
  | tick =>
    have hle : ∀ d : ℕ, s.clock ≤ s.clock + d := by omega
    exact ⟨h.armed, fun hread ↦ (h.readable hread).imp_right fun hdue ↦ hdue.mono (hle _)⟩

/-- A call that finds nothing due while an expiry waits is the beginning. -/
theorem of_getExpired (h : Reachable timerMachine Always s) (hread : s.timer.fd.readable = true)
    (hs : timerStep s .getExpired = some (t, [])) : Fruitful t := by
  have harmed := armed_of_readable h hread
  generalize hout : ([] : List Addr) = out at hs
  cases TimerStep.of_step hs with
  | getExpired hpc =>
    refine ⟨fun a ha ↦ ?_, fun _ ↦ .inl rfl⟩
    rw [Timer.fd_popExpired, harmed] at ha
    exact absurd ha (by simp)

/-- **No wake-up, no firing in vain.** -/
theorem of_run {tr : List (TimerAct × List Addr)} (h : Fruitful t)
    (hrun : Run timerMachine Undisturbed t tr u) :
    events tr = [] → Fruitful u := by
  refine hrun.history (P := fun tr u ↦ events tr = [] → Fruitful u) (fun _ ↦ h) ?_
  intro tr t u a out _ ih ha hs hout
  rw [events_append, events_singleton, List.append_eq_nil_iff] at hout
  obtain ⟨hpast, rfl⟩ := hout
  exact (ih hpast).step ha hs

end Fruitful

/-- If a call of `getExpiredCoroutines` puts nothing out while an expiry waits to be read, and none
is put out after it, the next such call puts something out, unless there has been a wake-up or a
deadline out of range. -/
def NoSpin : Prop :=
  ∀ (s t u v : TimerState) (tr : List (TimerAct × List Addr)) (out : List Addr),
    Reachable timerMachine Always s → s.timer.fd.readable = true →
    timerStep s .getExpired = some (t, []) →
    Run timerMachine Undisturbed t tr u → events tr = [] →
    u.timer.fd.readable = true → timerStep u .getExpired = some (v, out) →
      out ≠ []

theorem noSpin : NoSpin := by
  intro s t u v tr out hreach hread hvain hrun hquiet hread' hget
  have hfruitful := (Fruitful.of_getExpired hreach hread hvain).of_run hrun hquiet
  cases TimerStep.of_step hget with
  | getExpired hpc =>
    have hdue := hfruitful.due (by simp [hpc]) hread'
    exact fun hnil ↦ hdue.expired_ne_nil (List.map_eq_nil_iff.mp hnil)

/-- **Timer intervals are valid and tight.** For every deadline and every instant of arming whose
difference is an `int64_t`, the interval that `resetTimeOfTimefd` programs is not zero and
normalised, and it ends with the deadline due, less than a millisecond after the later of the two
instants. So when the timer fires for the top of the heap, `getExpiredCoroutines` finds it expired,
and no two firings in a row are in vain but for wake-ups. -/
theorem timer_interval_tight (timeVal clock : ℤ)
    (hrange : IsInt64 (timeVal - Time.now clock)) :
    (Time.timeIntervalFromNow timeVal clock).Tight timeVal clock ∧
      (∀ t : Timer, (t.resetTimeOfTimefd clock timeVal).fd.armed =
        some ⟨clock, Time.timeIntervalFromNow timeVal clock⟩) ∧
      TopExpires timeVal clock ∧ NoSpin :=
  ⟨Time.timeIntervalFromNow_tight hrange, fun t ↦ by rw [Timer.fd_resetTimeOfTimefd],
    topExpires hrange, noSpin⟩

/-- A sleeper is due at `5`, and a wake-up has fired before. -/
def firedInVain : TimerState :=
  (timerMachine.after Always ⟨.created, 0, .idle⟩
    [.runAfter 5 3, .arm, .wakeUp, .tick 1, .expire]).1

/-- The sleeper is not found, but the next firing is for it. -/
def firedAgain : TimerState × List (TimerAct × List Addr) :=
  timerMachine.after Undisturbed
    { firedInVain with timer := firedInVain.timer.popExpired firedInVain.clock, pc := .read }
    [.read, .rearm, .tick 5000, .expire]

theorem timer_interval_tight_after_wakeUp :
    (Time.timeIntervalFromNow 5 1).Tight 5 1 ∧
      firedAgain.1.timer.expiredCo firedAgain.1.clock ≠ [] := by
  obtain ⟨htight, -, -, hnoSpin⟩ := timer_interval_tight 5 1 (by decide)
  refine ⟨htight, hnoSpin firedInVain _ firedAgain.1 _ firedAgain.2 _
    ⟨_, _, ⟨rfl, rfl⟩, run_after _⟩ (by decide) (by rfl) (run_after _) (by decide) (by decide)
    (by rfl)⟩

end Copnet
