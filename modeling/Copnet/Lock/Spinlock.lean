import Copnet.Foundation.Critical
import Mathlib.Data.Int.Notation

/-!
# Spin locks

`Spinlock` is a word that is `1` while the lock is free. `lock` tries to swap `1` for `0` until it
succeeds; a failed attempt overwrites the expected value with what it found, so that the loop has to
set it back before the next one. A `SpinlockGuard` locks where it is built and unlocks where it goes
out of scope.

Threads whose sections are guarded so are run here one access at a time, the attempts included. The
lock then does what `Critical.machine` assumes of one: at any time at most one thread is inside, and
the word is `0` exactly while one is. A thread that has been told to wait has changed nothing.
-/

open Transition

namespace Copnet

namespace Spinlock

/-- `sem_` of a new lock. -/
def created : ℤ := 1

/-- `compare_exchange_strong` on the word `sem_`: whether it succeeded, the word and the expected
value afterwards. -/
def compareExchange (sem exp desired : ℤ) : Bool × ℤ × ℤ :=
  if sem = exp then (true, desired, exp) else (false, sem, sem)

def unlock : ℤ := 1

inductive Phase (κ ℓ : Type*)
  /-- Outside, and not in `lock`. -/
  | out (k : κ)
  /-- In `lock`, at the `compare_exchange_strong`, the expected value being `exp`. -/
  | cas (k : κ) (exp : ℤ)
  /-- In `lock`, after an attempt that has failed. -/
  | failed (k : κ) (exp : ℤ)
  /-- Inside a section. -/
  | inside (l : ℓ)

structure State (ι κ ℓ σ : Type*) where
  /-- `sem_`. -/
  sem : ℤ
  /-- What the lock protects. -/
  shared : σ
  /-- Where the threads are. -/
  phase : ι → Phase κ ℓ

inductive Act (ι φ : Type*)
  /-- Outside the sections. -/
  | free (i : ι) (c : φ)
  /-- A call of `lock`, by the constructor of a guard. -/
  | lock (i : ι)
  /-- An attempt in `lock`. -/
  | cas (i : ι)
  /-- The assignment in the loop of `lock`. -/
  | retry (i : ι)
  /-- Inside a section. -/
  | micro (i : ι)
  /-- A call of `unlock`, by the destructor of a guard. -/
  | unlock (i : ι)

variable {ι φ κ ℓ σ ε : Type*} [DecidableEq ι] (C : Critical.Client ι φ κ ℓ σ ε)

def step (s : State ι κ ℓ σ) : Act ι φ → Option (State ι κ ℓ σ × List ε)
  | .free i c =>
    match s.phase i with
    | .out k =>
      (C.free i c k s.shared).map fun r ↦
        ({ s with shared := r.2.1, phase := Function.update s.phase i (.out r.1) }, r.2.2)
    | _ => none
  | .lock i =>
    match s.phase i with
    | .out k =>
      (C.enter k).map fun _ ↦ ({ s with phase := Function.update s.phase i (.cas k 1) }, [])
    | _ => none
  | .cas i =>
    match s.phase i with
    | .cas k exp =>
      let (success, sem, exp) := compareExchange s.sem exp 0
      if success then
        (C.enter k).map fun l ↦
          ({ s with sem, phase := Function.update s.phase i (.inside l) }, [])
      else some ({ s with sem, phase := Function.update s.phase i (.failed k exp) }, [])
    | _ => none
  | .retry i =>
    match s.phase i with
    | .failed k _ => some ({ s with phase := Function.update s.phase i (.cas k 1) }, [])
    | _ => none
  | .micro i =>
    match s.phase i with
    | .inside l =>
      (C.micro l s.shared).map fun r ↦
        ({ s with shared := r.2, phase := Function.update s.phase i (.inside r.1) }, [])
    | _ => none
  | .unlock i =>
    match s.phase i with
    | .inside l =>
      (C.leave l).map fun r ↦
        ({ s with sem := unlock, phase := Function.update s.phase i (.out r.1) }, r.2)
    | _ => none

/-- The threads, and the lock between them. -/
def machine : Machine (State ι κ ℓ σ) (Act ι φ) ε where
  init s := s = ⟨created, C.first, fun i ↦ .out (C.start i)⟩
  step := step C

inductive Step (s : State ι κ ℓ σ) : Act ι φ → State ι κ ℓ σ → List ε → Prop
  | free {i : ι} {c : φ} {k k' : κ} {x : σ} {es : List ε} (hout : s.phase i = .out k)
      (hfree : C.free i c k s.shared = some (k', x, es)) :
      Step s (.free i c)
        { s with shared := x, phase := Function.update s.phase i (.out k') } es
  | lock {i : ι} {k : κ} {l : ℓ} (hout : s.phase i = .out k) (henter : C.enter k = some l) :
      Step s (.lock i) { s with phase := Function.update s.phase i (.cas k 1) } []
  | cas {i : ι} {k : κ} {l : ℓ} (hcas : s.phase i = .cas k s.sem) (henter : C.enter k = some l) :
      Step s (.cas i) { s with sem := 0, phase := Function.update s.phase i (.inside l) } []
  | casFails {i : ι} {k : κ} {exp : ℤ} (hcas : s.phase i = .cas k exp) (hne : s.sem ≠ exp) :
      Step s (.cas i) { s with phase := Function.update s.phase i (.failed k s.sem) } []
  | retry {i : ι} {k : κ} {exp : ℤ} (hfailed : s.phase i = .failed k exp) :
      Step s (.retry i) { s with phase := Function.update s.phase i (.cas k 1) } []
  | micro {i : ι} {l l' : ℓ} {x : σ} (hin : s.phase i = .inside l)
      (hmicro : C.micro l s.shared = some (l', x)) :
      Step s (.micro i)
        { s with shared := x, phase := Function.update s.phase i (.inside l') } []
  | unlock {i : ι} {l : ℓ} {k : κ} {es : List ε} (hin : s.phase i = .inside l)
      (hleave : C.leave l = some (k, es)) :
      Step s (.unlock i)
        { s with sem := Spinlock.unlock, phase := Function.update s.phase i (.out k) } es

variable {C} {s s' : State ι κ ℓ σ} {a : Act ι φ} {es : List ε}

theorem Step.of_step (h : step C s a = some (s', es)) : Step C s a s' es := by
  cases a with
  | free i c =>
    cases hout : s.phase i with
    | out k =>
      simp only [step, hout] at h
      obtain ⟨⟨k', x, es'⟩, hfree, hpair⟩ := Option.map_eq_some_iff.mp h
      simp only [Prod.mk.injEq] at hpair
      obtain ⟨rfl, rfl⟩ := hpair
      exact .free hout hfree
    | _ => simp [step, hout] at h
  | lock i =>
    cases hout : s.phase i with
    | out k =>
      simp only [step, hout] at h
      obtain ⟨l, henter, hpair⟩ := Option.map_eq_some_iff.mp h
      simp only [Prod.mk.injEq] at hpair
      obtain ⟨rfl, rfl⟩ := hpair
      exact .lock hout henter
    | _ => simp [step, hout] at h
  | cas i =>
    cases hcas : s.phase i with
    | cas k exp =>
      by_cases heq : s.sem = exp
      · subst heq
        simp only [step, hcas, compareExchange, if_true] at h
        obtain ⟨l, henter, hpair⟩ := Option.map_eq_some_iff.mp h
        simp only [Prod.mk.injEq] at hpair
        obtain ⟨rfl, rfl⟩ := hpair
        exact .cas hcas henter
      · simp only [step, hcas, compareExchange, if_neg heq, Bool.false_eq_true, if_false,
          Option.some.injEq, Prod.mk.injEq] at h
        obtain ⟨rfl, rfl⟩ := h
        exact .casFails hcas heq
    | _ => simp [step, hcas] at h
  | retry i =>
    cases hfailed : s.phase i with
    | failed k exp =>
      simp only [step, hfailed, Option.some.injEq, Prod.mk.injEq] at h
      obtain ⟨rfl, rfl⟩ := h
      exact .retry hfailed
    | _ => simp [step, hfailed] at h
  | micro i =>
    cases hin : s.phase i with
    | inside l =>
      simp only [step, hin] at h
      obtain ⟨⟨l', x⟩, hmicro, hpair⟩ := Option.map_eq_some_iff.mp h
      simp only [Prod.mk.injEq] at hpair
      obtain ⟨rfl, rfl⟩ := hpair
      exact .micro hin hmicro
    | _ => simp [step, hin] at h
  | unlock i =>
    cases hin : s.phase i with
    | inside l =>
      simp only [step, hin] at h
      obtain ⟨⟨k, es'⟩, hleave, hpair⟩ := Option.map_eq_some_iff.mp h
      simp only [Prod.mk.injEq] at hpair
      obtain ⟨rfl, rfl⟩ := hpair
      exact .unlock hin hleave
    | _ => simp [step, hin] at h

/-! ## The lock does what a lock should -/

/-- A thread in `lock` is outside. -/
def Phase.toPhase : Phase κ ℓ → Critical.Phase κ ℓ
  | .out k | .cas k _ | .failed k _ => .out k
  | .inside l => .inside l

/-- The state without the word and the attempts, `holder` being the thread inside. -/
def State.toState (s : State ι κ ℓ σ) (holder : Option ι) : Critical.State ι κ ℓ σ :=
  ⟨s.shared, fun i ↦ (s.phase i).toPhase, holder⟩

/-- The word tells whether somebody is inside. -/
def wordFor (holder : Option ι) : ℤ := if holder = none then 1 else 0

variable (C) in
/-- A thread at an attempt expects `1`, and has a section to enter. -/
def Attempt : Phase κ ℓ → Prop
  | .cas k exp => exp = 1 ∧ (C.enter k).isSome
  | .failed k _ => (C.enter k).isSome
  | _ => True

variable (C) in
/-- How the spinning threads are related to those of `Critical.machine`. -/
structure Implements (s : State ι κ ℓ σ) (t : Critical.State ι κ ℓ σ) : Prop where
  toState : t = s.toState t.holder
  held : t.Held
  sem : s.sem = wordFor t.holder
  attempt : ∀ i, Attempt C (s.phase i)

theorem toState_update (s : State ι κ ℓ σ) (sem : ℤ) (x : σ) (i : ι) (f : Phase κ ℓ)
    (holder : Option ι) :
    State.toState ⟨sem, x, Function.update s.phase i f⟩ holder =
      ⟨x, Function.update (fun j ↦ (s.phase j).toPhase) i f.toPhase, holder⟩ := by
  rw [State.toState, Critical.State.mk.injEq]
  exact ⟨rfl, Function.comp_update Phase.toPhase s.phase i f, rfl⟩

theorem attempt_update {i : ι} {f : Phase κ ℓ} (hs : ∀ j, Attempt C (s.phase j))
    (hf : Attempt C f) (j : ι) : Attempt C (Function.update s.phase i f j) := by
  by_cases hji : j = i
  · subst hji
    rwa [Function.update_self]
  · rw [Function.update_of_ne hji]
    exact hs j

namespace Implements

variable {t t' : Critical.State ι κ ℓ σ}

omit [DecidableEq ι] in
theorem phase (h : Implements C s t) (i : ι) : t.phase i = (s.phase i).toPhase := by
  rw [h.toState, State.toState]

omit [DecidableEq ι] in
theorem holder_eq_none (h : Implements C s t) (hsem : s.sem = 1) : t.holder = none := by
  by_contra hne
  rw [h.sem, wordFor, if_neg hne] at hsem
  exact absurd hsem (by decide)

/-- A step in `lock` that does not get the lock changes nothing. -/
theorem waits (h : Implements C s t) {i : ι} {f : Phase κ ℓ} (hf : f.toPhase = (s.phase i).toPhase)
    (hattempt : Attempt C f) :
    Implements C { s with phase := Function.update s.phase i f } t where
  toState := by
    rw [toState_update, hf, Function.update_eq_self]
    exact h.toState
  held := h.held
  sem := h.sem
  attempt := attempt_update h.attempt hattempt

/-- Any other step is one of `Critical.machine`. -/
theorem moves (h : Implements C s t) {a : Critical.Act ι φ} {i : ι} {f : Phase κ ℓ} {sem : ℤ}
    {x : σ} {holder : Option ι}
    (hstep : Critical.Step C t a ⟨x, Function.update t.phase i f.toPhase, holder⟩ es)
    (hsem : sem = wordFor holder) (hattempt : Attempt C f) :
    ∃ tr t', Run (Critical.machine C) Always t tr t' ∧ events tr = es ∧
      Implements C ⟨sem, x, Function.update s.phase i f⟩ t' := by
  obtain ⟨tr, hrun, hev⟩ := hstep.run
  refine ⟨tr, _, hrun, hev, ?_, hstep.held h.held, hsem, attempt_update h.attempt hattempt⟩
  rw [toState_update]
  congr 2
  funext j
  exact h.phase j

end Implements

/-- **The spin lock is a lock.** Threads that spin implement threads that enter only when nobody is
inside. -/
theorem simulation :
    Simulation (machine C) Always (Critical.machine C) Always (Implements C) where
  init := by
    rintro s rfl
    exact ⟨_, rfl, rfl, Critical.held_init (C := C) rfl, rfl, fun _ ↦ trivial⟩
  step := by
    intro s s' t a es h _ hstep
    have hst : Step C s a s' es := .of_step hstep
    have hshared : t.shared = s.shared := by rw [h.toState, State.toState]
    cases hst with
    | @free i c k k' x _ hout hfree =>
      have hphase : t.phase i = .out k := by rw [h.phase, hout, Phase.toPhase]
      rw [← hshared] at hfree
      exact h.moves (f := .out k') (.free hphase hfree) h.sem trivial
    | @lock i k l hout henter =>
      refine ⟨[], t, .nil, rfl, h.waits ?_ ⟨rfl, ?_⟩⟩
      · rw [hout, Phase.toPhase, Phase.toPhase]
      · rw [henter, Option.isSome_some]
    | @cas i k l hcas henter =>
      have hphase : t.phase i = .out k := by rw [h.phase, hcas, Phase.toPhase]
      have hone := h.attempt i
      rw [hcas] at hone
      have hmove : Critical.Step C t (.acquire i) _ [] :=
        .acquire (h.holder_eq_none hone.1) hphase henter
      rw [hshared] at hmove
      exact h.moves (f := .inside l) hmove rfl trivial
    | @casFails i k exp hcas hne =>
      have hone := h.attempt i
      rw [hcas] at hone
      refine ⟨[], t, .nil, rfl, h.waits ?_ hone.2⟩
      rw [hcas, Phase.toPhase, Phase.toPhase]
    | @retry i k exp hfailed =>
      have henter := h.attempt i
      rw [hfailed] at henter
      refine ⟨[], t, .nil, rfl, h.waits ?_ ⟨rfl, henter⟩⟩
      rw [hfailed, Phase.toPhase, Phase.toPhase]
    | @micro i l l' x hin hmicro =>
      have hphase : t.phase i = .inside l := by rw [h.phase, hin, Phase.toPhase]
      rw [← hshared] at hmicro
      exact h.moves (f := .inside l') (.micro hphase hmicro) h.sem trivial
    | @unlock i l k _ hin hleave =>
      have hphase : t.phase i = .inside l := by rw [h.phase, hin, Phase.toPhase]
      have hmove : Critical.Step C t (.release i) _ es := .release hphase hleave
      rw [hshared] at hmove
      exact h.moves (f := .out k) hmove rfl trivial

/-- How a state of the spinning threads looks from between sections: nobody is inside, or one thread
has made the first accesses of its section and all else is as before it came in. -/
inductive Amid (C : Critical.Client ι φ κ ℓ σ ε) (s : State ι κ ℓ σ) (u : Critical.Calm ι κ σ) :
    Prop
  | calm (hshared : s.shared = u.shared) (hout : ∀ i, (s.phase i).toPhase = .out (u.control i))
  | entered {o : ι} {n : ℕ} {l₀ l : ℓ} (hin : s.phase o = .inside l)
      (hout : ∀ i, i ≠ o → (s.phase i).toPhase = .out (u.control i))
      (henter : C.enter (u.control o) = some l₀)
      (hn : C.through n l₀ u.shared = some (l, s.shared))

theorem Phase.eq_inside {f : Phase κ ℓ} {l : ℓ} (h : f.toPhase = .inside l) : f = .inside l := by
  cases f with
  | inside l' =>
    cases h
    rfl
  | _ => cases h

/-- **Sections under a spin lock are single steps**, where reduction applies. -/
theorem atomic_of_run {I : Critical.State ι κ ℓ σ → Prop} (hC : Critical.Reducible C I)
    {s₀ : State ι κ ℓ σ} {tr : List (Act ι φ × List ε)} (hinit : (machine C).init s₀)
    (hrun : Run (machine C) Always s₀ tr s) :
    ∃ u₀ tr' u, (Critical.atomic C).init u₀ ∧ Run (Critical.atomic C) Always u₀ tr' u ∧
      events tr' = events tr ∧ Amid C s u := by
  obtain ⟨t₀, hinit', himpl₀⟩ := simulation.init hinit
  obtain ⟨tr₁, t, hrun₁, hev₁, himpl⟩ := simulation.run himpl₀ hrun
  obtain ⟨u₀, hinit'', hpart₀⟩ := hC.simulation.init hinit'
  obtain ⟨tr₂, u, hrun₂, hev₂, hpart⟩ := hC.simulation.run hpart₀ hrun₁
  refine ⟨u₀, tr₂, u, hinit'', hrun₂, hev₂.trans hev₁, ?_⟩
  have hshared : t.shared = s.shared := by rw [himpl.toState, State.toState]
  cases hpart with
  | calm _ => exact .calm hshared.symm fun i ↦ (himpl.phase i).symm
  | @entered _ o n l₀ l x _ henter hn =>
    obtain rfl : x = s.shared := hshared
    have hin : (s.phase o).toPhase = .inside l := by rw [← himpl.phase, u.phase_entered_self]
    refine .entered (Phase.eq_inside hin) (fun i hi ↦ ?_) henter hn
    rw [← himpl.phase, u.phase_entered_of_ne hi]

/-- **Mutual exclusion.** In every state reached, at most one thread is inside; the word is `0`
while one is and `1` while none is. A thread at an attempt gets in if the word is `1`, and
otherwise only learns what the word is. -/
theorem mutual_exclusion (h : Reachable (machine C) Always s) :
    (∀ i j l l', s.phase i = .inside l → s.phase j = .inside l' → i = j) ∧
      (s.sem = 0 ∧ (∃ i l, s.phase i = .inside l) ∨
        s.sem = 1 ∧ ∀ i l, s.phase i ≠ .inside l) ∧
      ∀ i k exp, s.phase i = .cas k exp →
        (s.sem = 1 → ∃ l, C.enter k = some l ∧ step C s (.cas i) =
          some ({ s with sem := 0, phase := Function.update s.phase i (.inside l) }, [])) ∧
        (s.sem = 0 → step C s (.cas i) =
          some ({ s with phase := Function.update s.phase i (.failed k 0) }, [])) := by
  obtain ⟨t, -, himpl⟩ := simulation.reachable h
  have hin : ∀ {i l}, s.phase i = .inside l → t.holder = some i := by
    intro i l hi
    refine (himpl.held i).mp ⟨l, ?_⟩
    rw [himpl.phase, hi, Phase.toPhase]
  refine ⟨?_, ?_, ?_⟩
  · intro i j l l' hi hj
    have hholder := hin hi
    rw [hin hj, Option.some_inj] at hholder
    exact hholder.symm
  · cases hholder : t.holder with
    | none =>
      refine .inr ⟨by rw [himpl.sem, hholder]; rfl, fun i l hi ↦ ?_⟩
      rw [hin hi] at hholder
      cases hholder
    | some o =>
      obtain ⟨l, hl⟩ := (himpl.held o).mpr hholder
      refine .inl ⟨by rw [himpl.sem, hholder]; rfl, o, l, ?_⟩
      rw [himpl.phase] at hl
      cases hphase : s.phase o <;> simp_all [Phase.toPhase]
  · intro i k exp hcas
    have hattempt := himpl.attempt i
    rw [hcas] at hattempt
    obtain ⟨rfl, henter⟩ := hattempt
    obtain ⟨l, hl⟩ := Option.isSome_iff_exists.mp henter
    constructor
    · intro hsem
      exact ⟨l, hl, by simp [step, hcas, compareExchange, hsem, hl]⟩
    · intro hsem
      simp [step, hcas, compareExchange, hsem]

/-- Threads that do nothing but lock and unlock. -/
def idle (ι : Type) : Critical.Client ι Unit Unit Unit Unit Unit where
  start _ := ()
  first := ()
  free _ _ _ _ := none
  enter _ := some ()
  micro _ _ := none
  leave _ := some ((), [])

/-- Of two threads that both attempt to, the second does not get in. -/
theorem mutual_exclusion_two : ∃ s : State Bool Unit Unit Unit,
    s.phase true = .inside () ∧ s.phase false = .cas () 1 ∧ s.sem = 0 ∧
      step (idle Bool) s (.cas false) =
        some ({ s with phase := Function.update s.phase false (.failed () 0) }, []) := by
  let s₀ : State Bool Unit Unit Unit := ⟨created, (), fun _ ↦ .out ()⟩
  let r := (machine (idle Bool)).after Always s₀ [.lock false, .lock true, .cas true]
  have hrun : Run (machine (idle Bool)) Always s₀ r.2 r.1 := run_after _
  have hcas : r.1.phase false = .cas () 1 := rfl
  exact ⟨r.1, rfl, hcas, rfl,
    ((mutual_exclusion ⟨s₀, r.2, rfl, hrun⟩).2.2 false () 1 hcas).2 rfl⟩

/-! ## Somebody gets in -/

/-- The thread is in `lock`. -/
def Phase.Waits : Phase κ ℓ → Prop
  | .cas _ _ | .failed _ _ => True
  | _ => False

def Act.thread : Act ι φ → ι
  | .free i _ | .lock i | .cas i | .retry i | .micro i | .unlock i => i

/-- Thread `i` gets in with the step from `s` to `s'`. -/
def GetsIn (s s' : State ι κ ℓ σ) (i : ι) : Prop :=
  (s.phase i).Waits ∧ ∃ l, s'.phase i = .inside l

def State.Empty (s : State ι κ ℓ σ) : Prop := ∀ i l, s.phase i ≠ .inside l

theorem Step.phase_of_ne (h : Step C s a s' es) {i : ι} (hi : i ≠ a.thread) :
    s'.phase i = s.phase i := by
  cases h <;> exact Function.update_of_ne hi ..

theorem phase_of_run {t : State ι κ ℓ σ} {tr : List (Act ι φ × List ε)}
    (h : Run (machine C) Always s tr t) {i : ι} (hi : ∀ st ∈ tr, i ≠ st.1.thread) :
    t.phase i = s.phase i := by
  induction h with
  | nil => rfl
  | snoc _ _ hstep ih =>
    have hlast := hi _ (List.mem_append_right _ (List.mem_singleton_self _))
    rw [(Step.of_step hstep).phase_of_ne hlast]
    exact ih fun st hst ↦ hi st (List.mem_append_left _ hst)

theorem Step.waits (h : Step C s a s' es) {i : ι} (hi : (s.phase i).Waits)
    (hno : ¬GetsIn s s' i) : (s'.phase i).Waits := by
  by_cases hia : i = a.thread
  · subst hia
    cases h with
    | free hout _ | lock hout _ => simp [Act.thread, hout, Phase.Waits] at hi
    | micro hin _ | unlock hin _ => simp [Act.thread, hin, Phase.Waits] at hi
    | cas hcas henter => exact absurd ⟨hi, _, Function.update_self ..⟩ hno
    | casFails hcas hne | retry hfailed => simp [Act.thread, Phase.Waits]
  · rwa [h.phase_of_ne hia]

theorem Step.empty (h : Step C s a s' es) (hs : s.Empty) (hno : ∀ i, ¬GetsIn s s' i) :
    s'.Empty := by
  intro j l hj
  by_cases hja : j = a.thread
  · subst hja
    cases h with
    | free hout _ | lock hout _ | casFails hout _ | retry hout | unlock hout _ =>
      simp [Act.thread] at hj
    | @cas i k l' hcas henter =>
      refine hno i ⟨?_, l', Function.update_self ..⟩
      simp [hcas, Phase.Waits]
    | micro hin hmicro => exact hs _ _ hin
  · rw [h.phase_of_ne hja] at hj
    exact hs j l hj

theorem Step.empty_of_unlock {i : ι} (h : Step C s (.unlock i) s' es)
    (hs : Reachable (machine C) Always s) : s'.Empty := by
  intro j l hj
  cases h with
  | @unlock _ l' k _ hin hleave =>
    by_cases hji : j = i
    · subst hji
      simp at hj
    · have hj' : s.phase j = .inside l := by simpa [Function.update_of_ne hji] using hj
      exact hji ((mutual_exclusion hs).1 j i l l' hj' hin)

theorem getsIn_of_empty (hs : Reachable (machine C) Always s) (hempty : s.Empty)
    (h : step C s a = some (s', es)) {k : κ} {exp : ℤ} (hcas : s.phase a.thread = .cas k exp) :
    GetsIn s s' a.thread := by
  obtain ⟨-, hword, hattempt⟩ := mutual_exclusion hs
  have hsem : s.sem = 1 := by
    rcases hword with ⟨-, i, l, hi⟩ | ⟨hsem, -⟩
    · exact absurd hi (hempty i l)
    · exact hsem
  obtain ⟨l, -, hstep⟩ := (hattempt _ k exp hcas).1 hsem
  refine ⟨by simp [hcas, Phase.Waits], l, ?_⟩
  cases a with
  | cas i =>
    rw [Act.thread] at hstep
    rw [hstep, Option.some_inj, Prod.mk.injEq] at h
    obtain ⟨rfl, -⟩ := h
    exact Function.update_self ..
  | _ => simp_all [step, Act.thread]

theorem Step.prepares (h : Step C s a s' es) (hwaits : (s.phase a.thread).Waits)
    (hno : ∀ k exp, s.phase a.thread ≠ .cas k exp) : ∃ k, s'.phase a.thread = .cas k 1 := by
  cases h with
  | free hout _ | lock hout _ | micro hout _ | unlock hout _ =>
    simp [Act.thread, hout, Phase.Waits] at hwaits
  | cas hcas _ | casFails hcas _ => exact absurd hcas (hno _ _)
  | retry hfailed => exact ⟨_, Function.update_self ..⟩

section Execution

variable (x : Execution (machine C) Always)

theorem reachable (hinit : (machine C).init (x.state 0)) (n : ℕ) :
    Reachable (machine C) Always (x.state n) := ⟨_, _, hinit, x.run n⟩

/-- **No deadlock.** In every run that goes on forever, in which whoever is inside comes to its
`unlock` and whoever is in `lock` goes on trying: as long as a thread waits, somebody gets in. -/
theorem deadlock_free (hinit : (machine C).init (x.state 0))
    (hends : ∀ n i l, (x.state n).phase i = .inside l → ∃ m, n ≤ m ∧ x.action m = .unlock i)
    (hkeeps : ∀ n i, ((x.state n).phase i).Waits → ∃ m, n ≤ m ∧ (x.action m).thread = i)
    (n : ℕ) (i : ι) (hwaits : ((x.state n).phase i).Waits) :
    ∃ m j, n ≤ m ∧ GetsIn (x.state m) (x.state (m + 1)) j := by
  by_contra hno
  have hnone : ∀ m j, n ≤ m → ¬GetsIn (x.state m) (x.state (m + 1)) j :=
    fun m j hm hin ↦ hno ⟨m, j, hm, hin⟩
  have hstep : ∀ m, Step C (x.state m) (x.action m) (x.state (m + 1)) (x.out m) :=
    fun m ↦ .of_step (x.step m)
  -- at some point nobody is inside, and so it stays
  obtain ⟨m, hnm, hempty⟩ : ∃ m, n ≤ m ∧ (x.state m).Empty := by
    by_cases hempty : (x.state n).Empty
    · exact ⟨n, Nat.le_refl n, hempty⟩
    · simp only [State.Empty, not_forall, not_not] at hempty
      obtain ⟨o, l, ho⟩ := hempty
      obtain ⟨m, hm, hunlock⟩ := hends n o l ho
      have hst := hstep m
      rw [hunlock] at hst
      exact ⟨m + 1, Nat.le_succ_of_le hm, hst.empty_of_unlock (reachable x hinit m)⟩
  have hempty' : ∀ k, (x.state (m + k)).Empty := by
    intro k
    induction k with
    | zero => exact hempty
    | succ k ih =>
      exact (hstep _).empty ih fun j ↦ hnone _ j (Nat.le_trans hnm (Nat.le_add_right m k))
  have hwaits' : ∀ k, n ≤ k → ((x.state k).phase i).Waits := by
    intro k hk
    induction hk with
    | refl => exact hwaits
    | step hk ih => exact (hstep _).waits ih (hnone _ i hk)
  -- from there on thread `i` is at no attempt when it takes a step
  have hno_cas : ∀ k, m ≤ k → (x.action k).thread = i → ∀ c e, (x.state k).phase i ≠ .cas c e := by
    rintro k hk rfl c e hcas
    obtain ⟨d, rfl⟩ := Nat.exists_eq_add_of_le hk
    exact hnone _ _ (Nat.le_trans hnm hk)
      (getsIn_of_empty (reachable x hinit _) (hempty' d) (x.step _) hcas)
  -- so it prepares one, and is at it when it takes its next step
  obtain ⟨k, hmk, hk⟩ := hkeeps m i (hwaits' m hnm)
  obtain ⟨c, hcas⟩ := (hstep k).prepares (hk ▸ hwaits' k (Nat.le_trans hnm hmk))
    (hk ▸ hno_cas k hmk hk)
  rw [hk] at hcas
  have hcas' : ∀ d, (x.state (k + 1 + d)).phase i = .cas c 1 := by
    intro d
    induction d with
    | zero => exact hcas
    | succ d ih =>
      have hother : i ≠ (x.action (k + 1 + d)).thread := fun hi ↦
        hno_cas _ (by omega) hi.symm c 1 ih
      exact ((hstep _).phase_of_ne hother).trans ih
  obtain ⟨k', hkk', hk'⟩ := hkeeps (k + 1) i (hwaits' (k + 1) (by omega))
  obtain ⟨d, rfl⟩ := Nat.exists_eq_add_of_le hkk'
  exact hno_cas _ (by omega) hk' c 1 (hcas' d)

def two (p q : Phase Unit Unit) (i : Bool) : Phase Unit Unit := if i then q else p

@[simp] theorem update_two_false (p q r : Phase Unit Unit) :
    Function.update (two p q) false r = two r q := by
  funext i
  cases i <;> rfl

@[simp] theorem update_two_true (p q r : Phase Unit Unit) :
    Function.update (two p q) true r = two p r := by
  funext i
  cases i <;> rfl

/-- A turn of two threads, step by step: the second one makes its attempt while the first is inside,
fails, and gets in when the first has left. -/
def turn : ℕ → State Bool Unit Unit Unit × Act Bool Unit
  | 0 => (⟨1, (), two (.out ()) (.out ())⟩, .lock false)
  | 1 => (⟨1, (), two (.cas () 1) (.out ())⟩, .lock true)
  | 2 => (⟨1, (), two (.cas () 1) (.cas () 1)⟩, .cas false)
  | 3 => (⟨0, (), two (.inside ()) (.cas () 1)⟩, .cas true)
  | 4 => (⟨0, (), two (.inside ()) (.failed () 0)⟩, .unlock false)
  | 5 => (⟨1, (), two (.out ()) (.failed () 0)⟩, .retry true)
  | 6 => (⟨1, (), two (.out ()) (.cas () 1)⟩, .cas true)
  | _ => (⟨0, (), two (.out ()) (.inside ())⟩, .unlock true)

theorem step_turn {k : ℕ} (hk : k < 8) :
    step (idle Bool) (turn k).1 (turn k).2 = some ((turn ((k + 1) % 8)).1, []) := by
  match k, hk with
  | 0, _ | 1, _ | 2, _ | 3, _ | 4, _ | 5, _ | 6, _ | 7, _ =>
    simp [turn, step, two, idle, compareExchange, unlock]

/-- Two threads take turns forever. -/
def contended : Execution (machine (idle Bool)) Always where
  state n := (turn (n % 8)).1
  action n := (turn (n % 8)).2
  out _ := []
  guarded _ := trivial
  step n := by
    have hstep := step_turn (Nat.mod_lt n (by decide : 8 > 0))
    rwa [Nat.mod_add_mod] at hstep

theorem deadlock_free_contended :
    (contended.state 4).phase false = .inside () ∧ (contended.state 4).phase true = .failed () 0 ∧
      ∃ m j, 4 ≤ m ∧ GetsIn (contended.state m) (contended.state (m + 1)) j := by
  have hinit : (machine (idle Bool)).init (contended.state 0) := by
    have hout : two (.out ()) (.out ()) = fun _ ↦ .out () := by
      funext i
      cases i <;> rfl
    exact congrArg (State.mk 1 ()) hout
  refine ⟨rfl, rfl,
    deadlock_free contended hinit (fun n i l _ ↦ ?_) (fun n i _ ↦ ?_) 4 true trivial⟩
  · -- the first thread leaves in step 4 of a turn, the second one in step 7
    cases i with
    | false => exact ⟨8 * n + 4, by omega, by simp [contended, turn]⟩
    | true => exact ⟨8 * n + 7, by omega, by simp [contended, turn]⟩
  · cases i with
    | false => exact ⟨8 * n, by omega, by simp [contended, turn, Act.thread]⟩
    | true => exact ⟨8 * n + 1, by omega, by simp [contended, turn, Act.thread]⟩

end Execution

end Spinlock

end Copnet
