import Copnet.Foundation.Simulation
import Mathlib.Logic.Function.Basic

/-!
# Critical sections and their reduction

Threads share a state. Each is in a control state of its own or inside a section, which it entered
holding the one lock there is and which it runs one access at a time; outside the sections a thread
may touch the shared state too, in single steps.

`machine` interleaves all of this. In `atomic`, a section is one step. The second is what one wants
to reason about and the first is what happens. They have the same histories if every step outside a
section, taken while another thread is in the middle of one, could as well have been taken just
before the last access of that section: it is then moved to before the section, one access at a
time, and the section moves to where it ends. Only states that can occur need to be considered, and
the intermediate states of the reordered run are among them, since they all come of steps of
`machine` itself.
-/

open Transition

namespace Critical

variable {ι φ κ ℓ σ ε : Type*}

/-- The code of threads `ι` with control states `κ`, which share a state `σ` and have sections with
local states `ℓ`. -/
structure Client (ι φ κ ℓ σ ε : Type*) where
  /-- Where a thread starts. -/
  start : ι → κ
  /-- The shared state at the start. -/
  first : σ
  /-- A step of a thread outside the sections, where `φ` is chosen by its environment. -/
  free : ι → φ → κ → σ → Option (κ × σ × List ε)
  /-- The section that a thread is about to enter. -/
  enter : κ → Option ℓ
  /-- One access inside a section. -/
  micro : ℓ → σ → Option (ℓ × σ)
  /-- Where a finished section leads, and what it reports. -/
  leave : ℓ → Option (κ × List ε)

inductive Phase (κ ℓ : Type*)
  /-- Outside the sections. -/
  | out (k : κ)
  /-- Inside a section. -/
  | inside (l : ℓ)

structure State (ι κ ℓ σ : Type*) where
  /-- The shared state. -/
  shared : σ
  /-- Where the threads are. -/
  phase : ι → Phase κ ℓ
  /-- Who holds the lock. -/
  holder : Option ι

inductive Act (ι φ : Type*)
  /-- Outside the sections. -/
  | free (i : ι) (c : φ)
  /-- The thread gets the lock. -/
  | acquire (i : ι)
  /-- Inside a section. -/
  | micro (i : ι)
  /-- The thread gives the lock back. -/
  | release (i : ι)

variable [DecidableEq ι] (C : Client ι φ κ ℓ σ ε)

def step (s : State ι κ ℓ σ) : Act ι φ → Option (State ι κ ℓ σ × List ε)
  | .free i c =>
    match s.phase i with
    | .out k =>
      (C.free i c k s.shared).map fun r ↦
        ({ s with shared := r.2.1, phase := Function.update s.phase i (.out r.1) }, r.2.2)
    | .inside _ => none
  | .acquire i =>
    match s.holder, s.phase i with
    | none, .out k =>
      (C.enter k).map fun l ↦
        ({ s with phase := Function.update s.phase i (.inside l), holder := some i }, [])
    | _, _ => none
  | .micro i =>
    match s.phase i with
    | .inside l =>
      (C.micro l s.shared).map fun r ↦
        ({ s with shared := r.2, phase := Function.update s.phase i (.inside r.1) }, [])
    | .out _ => none
  | .release i =>
    match s.phase i with
    | .inside l =>
      (C.leave l).map fun r ↦
        ({ s with phase := Function.update s.phase i (.out r.1), holder := none }, r.2)
    | .out _ => none

/-- The threads, their accesses interleaved. -/
def machine : Machine (State ι κ ℓ σ) (Act ι φ) ε where
  init s := s = ⟨C.first, fun i ↦ .out (C.start i), none⟩
  step := step C

inductive Step (s : State ι κ ℓ σ) : Act ι φ → State ι κ ℓ σ → List ε → Prop
  | free {i : ι} {c : φ} {k k' : κ} {x : σ} {es : List ε} (hout : s.phase i = .out k)
      (hfree : C.free i c k s.shared = some (k', x, es)) :
      Step s (.free i c)
        { s with shared := x, phase := Function.update s.phase i (.out k') } es
  | acquire {i : ι} {k : κ} {l : ℓ} (hno : s.holder = none) (hout : s.phase i = .out k)
      (henter : C.enter k = some l) :
      Step s (.acquire i)
        { s with phase := Function.update s.phase i (.inside l), holder := some i } []
  | micro {i : ι} {l l' : ℓ} {x : σ} (hin : s.phase i = .inside l)
      (hmicro : C.micro l s.shared = some (l', x)) :
      Step s (.micro i)
        { s with shared := x, phase := Function.update s.phase i (.inside l') } []
  | release {i : ι} {l : ℓ} {k : κ} {es : List ε} (hin : s.phase i = .inside l)
      (hleave : C.leave l = some (k, es)) :
      Step s (.release i)
        { s with phase := Function.update s.phase i (.out k), holder := none } es

variable {C} {s s' : State ι κ ℓ σ} {a : Act ι φ} {es : List ε}

theorem Step.of_step (h : step C s a = some (s', es)) : Step C s a s' es := by
  cases a with
  | free i c =>
    cases hout : s.phase i with
    | inside l => simp [step, hout] at h
    | out k =>
      simp only [step, hout] at h
      obtain ⟨⟨k', x, es'⟩, hfree, hpair⟩ := Option.map_eq_some_iff.mp h
      simp only [Prod.mk.injEq] at hpair
      obtain ⟨rfl, rfl⟩ := hpair
      exact .free hout hfree
  | acquire i =>
    cases hno : s.holder with
    | some o => simp [step, hno] at h
    | none =>
      cases hout : s.phase i with
      | inside l => simp [step, hno, hout] at h
      | out k =>
        simp only [step, hno, hout] at h
        obtain ⟨l, henter, hpair⟩ := Option.map_eq_some_iff.mp h
        simp only [Prod.mk.injEq] at hpair
        obtain ⟨rfl, rfl⟩ := hpair
        exact .acquire hno hout henter
  | micro i =>
    cases hin : s.phase i with
    | out k => simp [step, hin] at h
    | inside l =>
      simp only [step, hin] at h
      obtain ⟨⟨l', x⟩, hmicro, hpair⟩ := Option.map_eq_some_iff.mp h
      simp only [Prod.mk.injEq] at hpair
      obtain ⟨rfl, rfl⟩ := hpair
      exact .micro hin hmicro
  | release i =>
    cases hin : s.phase i with
    | out k => simp [step, hin] at h
    | inside l =>
      simp only [step, hin] at h
      obtain ⟨⟨k, es'⟩, hleave, hpair⟩ := Option.map_eq_some_iff.mp h
      simp only [Prod.mk.injEq] at hpair
      obtain ⟨rfl, rfl⟩ := hpair
      exact .release hin hleave

theorem Step.run (h : Step C s a s' es) :
    ∃ tr, Run (machine C) Always s tr s' ∧ events tr = es := by
  refine Run.one (a := a) trivial ?_
  cases h with
  | free hout hfree => simp [machine, step, hout, hfree]
  | acquire hno hout henter => simp [machine, step, hno, hout, henter]
  | micro hin hmicro => simp [machine, step, hin, hmicro]
  | release hin hleave => simp [machine, step, hin, hleave]

/-! ## The lock -/

/-- Exactly the holder is inside. -/
def State.Held (s : State ι κ ℓ σ) : Prop := ∀ i, (∃ l, s.phase i = .inside l) ↔ s.holder = some i

theorem held_init (h : (machine C).init s) : s.Held := by
  subst h
  simp [State.Held]

theorem Step.held (h : Step C s a s' es) (hs : s.Held) : s'.Held := by
  intro j
  have hj := hs j
  cases h with
  | @free i c k k' x es hout hfree =>
    by_cases hji : j = i
    · subst hji
      simpa [hout] using hj
    · simpa [Function.update_of_ne hji] using hj
  | @acquire i k l hno hout henter =>
    by_cases hji : j = i
    · subst hji
      simp
    · have hne : ¬i = j := fun h ↦ hji h.symm
      simpa [Function.update_of_ne hji, hno, hne] using hj
  | @micro i l l' x hin hmicro =>
    by_cases hji : j = i
    · subst hji
      simpa [hin] using hj
    · simpa [Function.update_of_ne hji] using hj
  | @release i l k es hin hleave =>
    have hi : s.holder = some i := (hs i).mp ⟨l, hin⟩
    by_cases hji : j = i
    · subst hji
      simp
    · have hne : ¬i = j := fun h ↦ hji h.symm
      simpa [Function.update_of_ne hji, hi, hne] using hj

/-! ## Sections as single steps -/

/-- `n` accesses in a row inside a section. -/
def Client.through (C : Client ι φ κ ℓ σ ε) : ℕ → ℓ → σ → Option (ℓ × σ)
  | 0, l, x => some (l, x)
  | n + 1, l, x => (C.micro l x).bind fun r ↦ C.through n r.1 r.2

/-- The state between sections. -/
structure Calm (ι κ σ : Type*) where
  /-- The shared state. -/
  shared : σ
  /-- The control states of the threads. -/
  control : ι → κ

/-- A step of a thread, a section being one. -/
inductive AtomicAct (ι φ : Type*)
  /-- Outside the sections. -/
  | free (i : ι) (c : φ)
  /-- A whole section, of `n` accesses. -/
  | whole (i : ι) (n : ℕ)

variable (C) in
def atomicStep (s : Calm ι κ σ) : AtomicAct ι φ → Option (Calm ι κ σ × List ε)
  | .free i c =>
    (C.free i c (s.control i) s.shared).map fun r ↦
      (⟨r.2.1, Function.update s.control i r.1⟩, r.2.2)
  | .whole i n =>
    (C.enter (s.control i)).bind fun l ↦ (C.through n l s.shared).bind fun r ↦
      (C.leave r.1).map fun r' ↦ (⟨r.2, Function.update s.control i r'.1⟩, r'.2)

variable (C) in
/-- The threads, their sections being single steps. -/
def atomic : Machine (Calm ι κ σ) (AtomicAct ι φ) ε where
  init s := s = ⟨C.first, C.start⟩
  step := atomicStep C

variable (C) in
inductive AtomicStep (t : Calm ι κ σ) : AtomicAct ι φ → Calm ι κ σ → List ε → Prop
  | free {i : ι} {c : φ} {k : κ} {x : σ} {es : List ε}
      (hfree : C.free i c (t.control i) t.shared = some (k, x, es)) :
      AtomicStep t (.free i c) ⟨x, Function.update t.control i k⟩ es
  | whole {i : ι} {n : ℕ} {l₀ l : ℓ} {k : κ} {x : σ} {es : List ε}
      (henter : C.enter (t.control i) = some l₀)
      (hn : C.through n l₀ t.shared = some (l, x)) (hleave : C.leave l = some (k, es)) :
      AtomicStep t (.whole i n) ⟨x, Function.update t.control i k⟩ es

theorem AtomicStep.of_step {t t' : Calm ι κ σ} {a : AtomicAct ι φ}
    (h : atomicStep C t a = some (t', es)) : AtomicStep C t a t' es := by
  cases a with
  | free i c =>
    obtain ⟨⟨k, y, es'⟩, hfree, hpair⟩ := Option.map_eq_some_iff.mp h
    simp only [Prod.mk.injEq] at hpair
    obtain ⟨rfl, rfl⟩ := hpair
    exact .free hfree
  | whole i n =>
    obtain ⟨l₀, henter, hrest⟩ := Option.bind_eq_some_iff.mp h
    obtain ⟨⟨l, x⟩, hn, hmap⟩ := Option.bind_eq_some_iff.mp hrest
    obtain ⟨⟨k, es'⟩, hleave, hpair⟩ := Option.map_eq_some_iff.mp hmap
    simp only [Prod.mk.injEq] at hpair
    obtain ⟨rfl, rfl⟩ := hpair
    exact .whole henter hn hleave

theorem AtomicStep.run {t t' : Calm ι κ σ} {a : AtomicAct ι φ} (h : AtomicStep C t a t' es) :
    ∃ tr, Run (atomic C) Always t tr t' ∧ events tr = es := by
  refine Run.one (a := a) trivial ?_
  cases h with
  | free hfree => simp [atomic, atomicStep, hfree]
  | whole henter hn hleave => simp [atomic, atomicStep, henter, hn, hleave]

omit [DecidableEq ι] in
theorem Client.through_succ (n : ℕ) (l : ℓ) (x : σ) :
    C.through (n + 1) l x = (C.through n l x).bind fun r ↦ C.micro r.1 r.2 := by
  induction n generalizing l x with
  | zero =>
    rw [Client.through, Client.through, Option.bind_some]
    exact Option.bind_fun_some _
  | succ n ih =>
    rw [Client.through, Client.through, Option.bind_assoc]
    exact Option.bind_congr fun r _ ↦ ih r.1 r.2

/-! ## Reduction -/

namespace Calm

variable (t : Calm ι κ σ)

/-- Nobody is inside. -/
def toState : State ι κ ℓ σ := ⟨t.shared, fun i ↦ .out (t.control i), none⟩

/-- Thread `o` is inside at `l`, the shared state being `x`. -/
def entered (o : ι) (l : ℓ) (x : σ) : State ι κ ℓ σ :=
  ⟨x, Function.update (fun i ↦ .out (t.control i)) o (.inside l), some o⟩

@[simp] theorem phase_entered_self (o : ι) (l : ℓ) (x : σ) :
    (t.entered o l x).phase o = .inside l := by
  simp [entered]

theorem phase_entered_of_ne {i o : ι} (h : i ≠ o) (l : ℓ) (x : σ) :
    (t.entered o l x).phase i = .out (t.control i) := by
  simp [entered, Function.update_of_ne h]

theorem eq_of_entered {i o : ι} {l l' : ℓ} {x : σ} (h : (t.entered o l x).phase i = .inside l') :
    i = o := by
  by_contra hne
  rw [t.phase_entered_of_ne hne] at h
  cases h

theorem toState_update (i : ι) (k : κ) (x : σ) :
    (⟨x, Function.update t.control i k⟩ : Calm ι κ σ).toState =
      (⟨x, Function.update (fun j ↦ .out (t.control j)) i (.out k), none⟩ : State ι κ ℓ σ) := by
  rw [toState, State.mk.injEq]
  exact ⟨rfl, Function.comp_update Phase.out t.control i k, rfl⟩

theorem entered_update {i o : ι} (h : i ≠ o) (k : κ) (l : ℓ) (x y : σ) :
    (⟨y, Function.update t.control i k⟩ : Calm ι κ σ).entered o l x =
      ⟨x, Function.update (t.entered o l x).phase i (.out k), some o⟩ := by
  rw [entered, State.mk.injEq, entered, Function.update_comm (Ne.symm h)]
  exact ⟨rfl, congrArg (Function.update · o _) (Function.comp_update Phase.out t.control i k), rfl⟩

theorem entered_inside (o : ι) (l l' : ℓ) (x x' : σ) :
    t.entered o l' x' =
      ⟨x', Function.update (t.entered o l x).phase o (.inside l'), some o⟩ := by
  simp [entered]

theorem entered_leave (o : ι) (k : κ) (l : ℓ) (x : σ) :
    (⟨x, Function.update t.control o k⟩ : Calm ι κ σ).toState =
      ⟨x, Function.update (t.entered o l x).phase o (.out k), none⟩ := by
  rw [t.toState_update, entered, Function.update_idem]

end Calm

variable (C) in
/-- What lets sections be taken for single steps, given an invariant `I`: a free step that follows
an access of another thread could have been taken before it. -/
structure Reducible (I : State ι κ ℓ σ → Prop) : Prop where
  init : ∀ {s}, (machine C).init s → I s
  step : ∀ {s a s' es}, Step C s a s' es → I s → I s'
  moves : ∀ {s : State ι κ ℓ σ} {o i : ι} {c : φ} {l l' : ℓ} {k k' : κ} {x y : σ} {es : List ε},
    I s → i ≠ o → s.phase o = .inside l → s.phase i = .out k →
    C.micro l s.shared = some (l', x) → C.free i c k x = some (k', y, es) →
    ∃ z, C.free i c k s.shared = some (k', z, es) ∧ C.micro l z = some (l', y)

variable (C) in
/-- How the interleaved threads are related to the atomic ones: nobody is inside, or one thread has
made its first `n` accesses and all else is as before it came in. -/
inductive Partial (I : State ι κ ℓ σ → Prop) : State ι κ ℓ σ → Calm ι κ σ → Prop
  | calm {t : Calm ι κ σ} (hI : I t.toState) : Partial I t.toState t
  | entered {t : Calm ι κ σ} {o : ι} {n : ℕ} {l₀ l : ℓ} {x : σ} (hI : I t.toState)
      (henter : C.enter (t.control o) = some l₀)
      (hn : C.through n l₀ t.shared = some (l, x)) : Partial I (t.entered o l x) t

namespace Reducible

variable {I : State ι κ ℓ σ → Prop} {t : Calm ι κ σ} {o i : ι} {n : ℕ} {l l' : ℓ} {x x' : σ}

theorem micro (hC : Reducible C I) (hI : I (t.entered o l x))
    (hmicro : C.micro l x = some (l', x')) : I (t.entered o l' x') := by
  rw [t.entered_inside o l l' x x']
  exact hC.step (.micro (t.phase_entered_self o l x) hmicro) hI

theorem through (hC : Reducible C I) (hI : I (t.entered o l x))
    (hn : C.through n l x = some (l', x')) : I (t.entered o l' x') := by
  induction n generalizing l x with
  | zero =>
    simp only [Client.through, Option.some.injEq, Prod.mk.injEq] at hn
    obtain ⟨rfl, rfl⟩ := hn
    exact hI
  | succ n ih =>
    obtain ⟨⟨l₁, x₁⟩, hmicro, hrest⟩ := Option.bind_eq_some_iff.mp hn
    exact ih (hC.micro hI hmicro) hrest

/-- A free step moves to before all the accesses of a section in progress. -/
theorem free_through (hC : Reducible C I) (hio : i ≠ o) {c : φ} {k : κ} {y : σ} {es : List ε}
    (hI : I (t.entered o l x)) (hn : C.through n l x = some (l', x'))
    (hfree : C.free i c (t.control i) x' = some (k, y, es)) :
    ∃ z, C.free i c (t.control i) x = some (k, z, es) ∧ C.through n l z = some (l', y) := by
  induction n generalizing l x with
  | zero =>
    simp only [Client.through, Option.some.injEq, Prod.mk.injEq] at hn
    obtain ⟨rfl, rfl⟩ := hn
    exact ⟨y, hfree, rfl⟩
  | succ n ih =>
    obtain ⟨⟨l₁, x₁⟩, hmicro, hrest⟩ := Option.bind_eq_some_iff.mp hn
    obtain ⟨z₁, hfree₁, hrest₁⟩ := ih (hC.micro hI hmicro) hrest
    obtain ⟨z, hfree', hmicro'⟩ := hC.moves hI hio (t.phase_entered_self o l x)
      (t.phase_entered_of_ne hio l x) hmicro hfree₁
    exact ⟨z, hfree', by rw [Client.through, hmicro']; exact hrest₁⟩

theorem calm_free (hC : Reducible C I) {c : φ} {k : κ} {y : σ} {es : List ε} (hI : I t.toState)
    (hfree : C.free i c (t.control i) t.shared = some (k, y, es)) :
    (∃ tr, Run (atomic C) Always t tr ⟨y, Function.update t.control i k⟩ ∧ events tr = es) ∧
      I (⟨y, Function.update t.control i k⟩ : Calm ι κ σ).toState := by
  constructor
  · exact (AtomicStep.free hfree).run
  · rw [t.toState_update]
    exact hC.step (.free rfl hfree) hI

theorem calm_whole (hC : Reducible C I) {l₀ : ℓ} {k : κ} {es : List ε} (hI : I t.toState)
    (henter : C.enter (t.control o) = some l₀) (hn : C.through n l₀ t.shared = some (l, x))
    (hleave : C.leave l = some (k, es)) :
    (∃ tr, Run (atomic C) Always t tr ⟨x, Function.update t.control o k⟩ ∧ events tr = es) ∧
      I (⟨x, Function.update t.control o k⟩ : Calm ι κ σ).toState := by
  constructor
  · exact (AtomicStep.whole henter hn hleave).run
  · have hI₀ : I (t.entered o l₀ t.shared) := hC.step (.acquire rfl rfl henter) hI
    rw [t.entered_leave o k l x]
    exact hC.step (.release (t.phase_entered_self o l x) hleave) (hC.through hI₀ hn)

theorem atomic_step (hC : Reducible C I) {t' : Calm ι κ σ} {a : AtomicAct ι φ} {es : List ε}
    (h : AtomicStep C t a t' es) (hI : I t.toState) : I t'.toState := by
  cases h with
  | free hfree => exact (hC.calm_free hI hfree).2
  | whole henter hn hleave => exact (hC.calm_whole hI henter hn hleave).2

/-- **Reduction.** The interleaved threads implement the atomic ones. -/
theorem simulation (hC : Reducible C I) :
    Simulation (machine C) Always (atomic C) Always (Partial C I) where
  init := by
    rintro s rfl
    exact ⟨⟨C.first, C.start⟩, rfl, .calm (t := ⟨C.first, C.start⟩) (hC.init rfl)⟩
  step := by
    rintro s s' t a es hR - hstep
    have hst : Step C s a s' es := .of_step hstep
    cases hR with
    | calm hI =>
      cases hst with
      | @free i c k k' x _ hout hfree =>
        obtain rfl : t.control i = k := Phase.out.inj hout
        -- nobody is in the way
        obtain ⟨⟨tr, hrun, hev⟩, hI'⟩ := hC.calm_free hI hfree
        have hpart := Partial.calm (C := C) hI'
        rw [t.toState_update] at hpart
        exact ⟨tr, _, hrun, hev, hpart⟩
      | @acquire i k l hno hout henter =>
        obtain rfl : t.control i = k := Phase.out.inj hout
        exact ⟨[], t, .nil, rfl, .entered (n := 0) hI henter rfl⟩
      | micro hin hmicro => cases hin
      | release hin hleave => cases hin
    | @entered _ o n l₀ l x hI henter hn =>
      have hI₀ : I (t.entered o l₀ t.shared) := hC.step (.acquire rfl rfl henter) hI
      cases hst with
      | @free i c k k' y _ hout hfree =>
        have hio : i ≠ o := by
          rintro rfl
          rw [t.phase_entered_self] at hout
          cases hout
        rw [t.phase_entered_of_ne hio, Phase.out.injEq] at hout
        subst hout
        -- the step is taken before the section
        obtain ⟨z, hfree', hn'⟩ := hC.free_through hio hI₀ hn hfree
        obtain ⟨⟨tr, hrun, hev⟩, hI'⟩ := hC.calm_free hI hfree'
        have henter' : C.enter (Function.update t.control i k' o) = some l₀ := by
          rwa [Function.update_of_ne (Ne.symm hio)]
        have hpart := Partial.entered (C := C) hI' henter' hn'
        rw [t.entered_update hio] at hpart
        exact ⟨tr, _, hrun, hev, hpart⟩
      | acquire hno hout henter => cases hno
      | @micro i l₁ l' y hin hmicro =>
        obtain rfl : i = o := t.eq_of_entered hin
        rw [t.phase_entered_self, Phase.inside.injEq] at hin
        subst hin
        have hn' : C.through (n + 1) l₀ t.shared = some (l', y) := by
          rw [Client.through_succ, hn]
          exact hmicro
        have hpart := Partial.entered hI henter hn'
        rw [t.entered_inside i l l' x y] at hpart
        exact ⟨[], t, .nil, rfl, hpart⟩
      | @release i l₁ k _ hin hleave =>
        obtain rfl : i = o := t.eq_of_entered hin
        rw [t.phase_entered_self, Phase.inside.injEq] at hin
        subst hin
        -- the section is taken here
        obtain ⟨⟨tr, hrun, hev⟩, hI'⟩ := hC.calm_whole hI henter hn hleave
        have hpart := Partial.calm (C := C) hI'
        rw [t.entered_leave i k l x] at hpart
        exact ⟨tr, _, hrun, hev, hpart⟩

end Reducible

/-- Where threads keep away from the shared state outside their sections, nothing else is needed. -/
theorem reducible_of_free (h : ∀ {i c k k' x y es},
    C.free i c k x = some (k', y, es) → y = x ∧ ∀ z, C.free i c k z = some (k', z, es)) :
    Reducible C fun _ ↦ True where
  init _ := trivial
  step _ _ := trivial
  moves := by
    intro s o i c l l' k k' x y es _ _ _ _ hmicro hfree
    obtain ⟨rfl, hany⟩ := h hfree
    exact ⟨s.shared, hany _, hmicro⟩

end Critical
