import Copnet.Lock.Spinlock
import Copnet.Runtime.RunQueue
import Mathlib.Data.List.Induction

/-!
# The new-coroutine queues, one access at a time

`goCo` and `goCoBatch` run on any thread and append under `newQueLock_`, one coroutine at a time, to
the queue that is not running. The loop of the processor reads `runningNewQue_`, tests, looks at and
pops the running queue without the lock, and takes the lock only to flip. Coroutines it resumes on
the way may call `goCo` on its own thread.

Each access is a step here: the computation of the index `!runningNewQue_` and the push that uses it
are two, and so are `empty`, `front` and `pop`. Elsewhere the runtime is modelled with one step for
each protected section; that this loses nothing is what is shown. Reduction applies since the loop
touches only the running queue and the threads in a section only the other one, so that its steps
move to before a section in progress.
-/

open Transition

namespace Copnet

namespace NewQueue

/-! ## The code -/

/-- Where the loop of the processor stands, as far as its queues are concerned. -/
inductive LoopAt (α : Type*)
  /-- At the read of `runningNewQue_`. -/
  | read
  /-- At `empty`. -/
  | test (runningQue : Bool)
  /-- At `front`. -/
  | front (runningQue : Bool)
  /-- At `pop`. -/
  | pop (runningQue : Bool) (pNewCo : α)
  /-- At the guard before the flip. -/
  | flip (runningQue : Bool)
  /-- Elsewhere. -/
  | rest
deriving DecidableEq

inductive Control (α : Type*)
  /-- In the loop of the processor. -/
  | loop (pc : LoopAt α)
  /-- In a coroutine that the loop has resumed and that gives the thread back at `pc`, or on a
  thread of its own. -/
  | user (pc : Option (LoopAt α))
  /-- In `goCo` or `goCoBatch`, at the guard. -/
  | goCo (cos : List α) (pc : Option (LoopAt α))
deriving DecidableEq

inductive Local (α : Type*)
  /-- In `goCo` or `goCoBatch`, at the next index, where `rest` has not been pushed. -/
  | index (cos rest : List α) (pc : Option (LoopAt α))
  /-- At the push of `pCo` on queue number `que`. -/
  | push (cos : List α) (que : Bool) (pCo : α) (rest : List α) (pc : Option (LoopAt α))
  /-- In the loop, at the assignment of `!runningQue`. -/
  | flip (runningQue : Bool)
  /-- After it. -/
  | flipped
deriving DecidableEq

/-- What a thread does next, where its code leaves it open. -/
inductive Choice (α : Type*)
  /-- It goes on; a resumption finds nothing to switch to. -/
  | go
  /-- The loop switches into a coroutine. -/
  | switch
  /-- The code of a coroutine, or of a thread of its own, calls `goCoBatch(cos)`. -/
  | goCo (cos : List α)

/-- What is reported, sections where they end. -/
inductive Event (α : Type*)
  /-- `cos` has been pushed. -/
  | push (cos : List α)
  /-- The loop has popped `a` from queue number `que`. -/
  | pop (que : Bool) (a : α)
  /-- The loop has flipped the queues. -/
  | flip
deriving DecidableEq

variable {α θ : Type*}

/-- Where the code goes on after a resumption. -/
def resumed (c : Choice α) (pc : LoopAt α) : Control α :=
  match c with
  | .switch => .user (some pc)
  | _ => .loop pc

/-- A step outside the sections. -/
def free (c : Choice α) (k : Control α) (b : DoubleBuffer α) :
    Option (Control α × DoubleBuffer α × List (Event α)) :=
  match k, c with
  | .loop .read, _ => some (.loop (.test b.running), b, [])
  | .loop (.test runningQue), _ =>
    if b.bufs runningQue = [] then some (.loop (.flip runningQue), b, [])
    else some (.loop (.front runningQue), b, [])
  | .loop (.front runningQue), _ =>
    match b.bufs runningQue with
    | [] => none
    | a :: _ => some (.loop (.pop runningQue a), b, [])
  | .loop (.pop runningQue pNewCo), c =>
    match b.bufs runningQue with
    | [] => none
    | _ :: _ =>
      some (resumed c (.test runningQue), b.pop runningQue, [.pop runningQue pNewCo])
  | .loop .rest, .switch => some (.user (some .rest), b, [])
  | .loop .rest, _ => some (.loop .read, b, [])
  | .user (some pc), .go => some (.loop pc, b, [])
  | .user pc, .goCo cos => some (.goCo cos pc, b, [])
  | _, _ => none

/-- The section that a guard opens. -/
def enter : Control α → Option (Local α)
  | .goCo cos pc => some (.index cos cos pc)
  | .loop (.flip runningQue) => some (.flip runningQue)
  | _ => none

/-- `std::queue::push` on queue number `que`. -/
def pushOn (b : DoubleBuffer α) (que : Bool) (pCo : α) : DoubleBuffer α :=
  { b with bufs := Function.update b.bufs que (b.bufs que ++ [pCo]) }

/-- An access inside a section. -/
def micro : Local α → DoubleBuffer α → Option (Local α × DoubleBuffer α)
  | .index cos (pCo :: rest) pc, b => some (.push cos (!b.running) pCo rest pc, b)
  | .index _ [] _, _ => none
  | .push cos que pCo rest pc, b => some (.index cos rest pc, pushOn b que pCo)
  | .flip runningQue, b => some (.flipped, b.flip runningQue)
  | .flipped, _ => none

def leave : Local α → Option (Control α × List (Event α))
  | .index cos [] pc => some (.user pc, [.push cos])
  | .flipped => some (.loop .rest, [.flip])
  | _ => none

/-- The thread of the processor, which is `none`, and others. -/
def client (α θ : Type*) :
    Critical.Client (Option θ) (Choice α) (Control α) (Local α) (DoubleBuffer α) (Event α) where
  start
    | none => .loop .rest
    | some _ => .user none
  first := .empty
  free _ := free
  enter := enter
  micro := micro
  leave := leave

/-! ## What the threads rely on -/

/-- What the loop at a place relies on: it holds the running index, and what it has seen of that
queue is still so. -/
def Agrees (b : DoubleBuffer α) : LoopAt α → Prop
  | .read | .rest => True
  | .test runningQue => runningQue = b.running
  | .front runningQue => runningQue = b.running ∧ b.front ≠ []
  | .pop runningQue pNewCo => runningQue = b.running ∧ b.front.head? = some pNewCo
  | .flip runningQue => runningQue = b.running ∧ b.front = []

/-- Only the thread of the processor has a loop to go back to. -/
def Stands (b : DoubleBuffer α) (i : Option θ) : Option (LoopAt α) → Prop
  | none => i ≠ none
  | some pc => i = none ∧ Agrees b pc

def Control.Fits (b : DoubleBuffer α) (i : Option θ) : Control α → Prop
  | .loop pc => Stands b i (some pc)
  | .user pc | .goCo _ pc => Stands b i pc

def Local.Fits (b : DoubleBuffer α) (i : Option θ) : Local α → Prop
  | .index cos rest pc => rest <:+ cos ∧ Stands b i pc
  | .push cos que pCo rest pc => que = (!b.running) ∧ pCo :: rest <:+ cos ∧ Stands b i pc
  | .flip runningQue => i = none ∧ runningQue = b.running ∧ b.front = []
  | .flipped => i = none

/-- What holds of thread `i`. -/
def Fits (b : DoubleBuffer α) (i : Option θ) : Critical.Phase (Control α) (Local α) → Prop
  | .out k => k.Fits b i
  | .inside l => l.Fits b i

structure Inv (s : Critical.State (Option θ) (Control α) (Local α) (DoubleBuffer α)) : Prop where
  held : s.Held
  fits : ∀ i, Fits s.shared i (s.phase i)

section Fits

variable {b b' : DoubleBuffer α} {i : Option θ} {t : θ} {c : Choice α} {k k' : Control α}
  {l l' : Local α} {es : List (Event α)}

@[simp] theorem running_pushOn (que : Bool) (pCo : α) : (pushOn b que pCo).running = b.running :=
  rfl

theorem bufs_pushOn_of_ne {que que' : Bool} (h : que' ≠ que) (pCo : α) :
    (pushOn b que pCo).bufs que' = b.bufs que' := Function.update_of_ne h ..

theorem front_pushOn {que : Bool} (h : que = (!b.running)) (pCo : α) :
    (pushOn b que pCo).front = b.front := bufs_pushOn_of_ne (by simp [h]) pCo

theorem pop_pushOn {que que' : Bool} (h : que' ≠ que) (pCo : α) :
    (pushOn b que pCo).pop que' = pushOn (b.pop que') que pCo := by
  have hbufs : (b.pop que').bufs que = b.bufs que := Function.update_of_ne (Ne.symm h) ..
  rw [DoubleBuffer.pop, bufs_pushOn_of_ne h, pushOn, pushOn, hbufs, DoubleBuffer.pop,
    Function.update_comm h]

theorem Agrees.of_eq {pc : LoopAt α} (h : Agrees b pc) (hrunning : b'.running = b.running)
    (hfront : b'.front = b.front) : Agrees b' pc := by
  cases pc with
  | read | rest => trivial
  | _ => simpa only [Agrees, hrunning, hfront] using h

theorem Stands.of_eq {pc : Option (LoopAt α)} (h : Stands b i pc)
    (hrunning : b'.running = b.running) (hfront : b'.front = b.front) : Stands b' i pc := by
  cases pc with
  | none => exact h
  | some pc => exact ⟨h.1, h.2.of_eq hrunning hfront⟩

theorem Stands.other {pc : Option (LoopAt α)} (h : Stands b (some t) pc) : pc = none := by
  cases pc with
  | none => rfl
  | some pc => exact absurd h.1 (Option.some_ne_none t)

theorem stands_other : Stands b (some t) none := Option.some_ne_none t

theorem Control.Fits.of_eq (h : k.Fits b i) (hrunning : b'.running = b.running)
    (hfront : b'.front = b.front) : k.Fits b' i := by
  cases k with
  | loop pc => exact Stands.of_eq (i := i) (show Stands b i (some pc) from h) hrunning hfront
  | user pc | goCo cos pc => exact Stands.of_eq (show Stands b i pc from h) hrunning hfront

theorem Control.Fits.other (h : k.Fits b (some t)) : k.Fits b' (some t) := by
  cases k with
  | loop pc => exact absurd h.1 (Option.some_ne_none t)
  | user pc | goCo cos pc =>
    obtain rfl := Stands.other h
    exact stands_other (b := b')

theorem Fits.other {f : Critical.Phase (Control α) (Local α)} (h : Fits b (some t) f)
    (hrunning : b'.running = b.running) : Fits b' (some t) f := by
  cases f with
  | out k => exact Control.Fits.other h
  | inside l =>
    cases l with
    | index cos rest pc =>
      obtain rfl := h.2.other
      exact ⟨h.1, stands_other⟩
    | push cos que pCo rest pc =>
      obtain rfl := h.2.2.other
      exact ⟨h.1.trans (by rw [hrunning]), h.2.1, stands_other⟩
    | flip runningQue | flipped => exact absurd h (by simp [Fits, Local.Fits])

end Fits

/-! ## What a step does -/

inductive Free (b : DoubleBuffer α) :
    Choice α → Control α → Control α → DoubleBuffer α → List (Event α) → Prop
  | read {c : Choice α} : Free b c (.loop .read) (.loop (.test b.running)) b []
  | nothing {c : Choice α} {runningQue : Bool} (hnil : b.bufs runningQue = []) :
      Free b c (.loop (.test runningQue)) (.loop (.flip runningQue)) b []
  | something {c : Choice α} {runningQue : Bool} (hne : b.bufs runningQue ≠ []) :
      Free b c (.loop (.test runningQue)) (.loop (.front runningQue)) b []
  | front {c : Choice α} {runningQue : Bool} {a : α} {as : List α}
      (hcons : b.bufs runningQue = a :: as) :
      Free b c (.loop (.front runningQue)) (.loop (.pop runningQue a)) b []
  | pop {c : Choice α} {runningQue : Bool} {pNewCo : α} (hne : b.bufs runningQue ≠ []) :
      Free b c (.loop (.pop runningQue pNewCo)) (resumed c (.test runningQue))
        (b.pop runningQue) [.pop runningQue pNewCo]
  | switch : Free b .switch (.loop .rest) (.user (some .rest)) b []
  | next {c : Choice α} (hc : c ≠ .switch) : Free b c (.loop .rest) (.loop .read) b []
  | giveBack {pc : LoopAt α} : Free b .go (.user (some pc)) (.loop pc) b []
  | goCo {cos : List α} {pc : Option (LoopAt α)} : Free b (.goCo cos) (.user pc) (.goCo cos pc) b []

inductive Micro (b : DoubleBuffer α) : Local α → Local α → DoubleBuffer α → Prop
  | index {cos rest : List α} {pCo : α} {pc : Option (LoopAt α)} :
      Micro b (.index cos (pCo :: rest) pc) (.push cos (!b.running) pCo rest pc) b
  | push {cos rest : List α} {que : Bool} {pCo : α} {pc : Option (LoopAt α)} :
      Micro b (.push cos que pCo rest pc) (.index cos rest pc) (pushOn b que pCo)
  | flip {runningQue : Bool} : Micro b (.flip runningQue) .flipped (b.flip runningQue)

section Steps

variable {b b' : DoubleBuffer α} {i : Option θ} {t : θ} {c : Choice α} {k k' : Control α}
  {l l' : Local α} {es : List (Event α)}

theorem Free.of_free (h : free c k b = some (k', b', es)) : Free b c k k' b' es := by
  cases k with
  | loop pc =>
    cases pc with
    | read =>
      simp only [free, Option.some.injEq, Prod.mk.injEq] at h
      obtain ⟨rfl, rfl, rfl⟩ := h
      exact .read
    | test runningQue =>
      simp only [free] at h
      split at h <;> simp only [Option.some.injEq, Prod.mk.injEq] at h <;>
        obtain ⟨rfl, rfl, rfl⟩ := h
      · exact .nothing ‹_›
      · exact .something ‹_›
    | front runningQue =>
      simp only [free] at h
      split at h
      · simp at h
      · simp only [Option.some.injEq, Prod.mk.injEq] at h
        obtain ⟨rfl, rfl, rfl⟩ := h
        exact .front ‹_›
    | pop runningQue pNewCo =>
      simp only [free] at h
      split at h
      · simp at h
      · next hcons =>
        simp only [Option.some.injEq, Prod.mk.injEq] at h
        obtain ⟨rfl, rfl, rfl⟩ := h
        exact .pop (by simp [hcons])
    | flip runningQue => simp [free] at h
    | rest =>
      cases c with
      | switch =>
        simp only [free, Option.some.injEq, Prod.mk.injEq] at h
        obtain ⟨rfl, rfl, rfl⟩ := h
        exact .switch
      | _ =>
        simp only [free, Option.some.injEq, Prod.mk.injEq] at h
        obtain ⟨rfl, rfl, rfl⟩ := h
        exact .next (by simp)
  | user pc =>
    cases c with
    | goCo cos =>
      simp only [free, Option.some.injEq, Prod.mk.injEq] at h
      obtain ⟨rfl, rfl, rfl⟩ := h
      exact .goCo
    | go =>
      cases pc with
      | none => simp [free] at h
      | some pc =>
        simp only [free, Option.some.injEq, Prod.mk.injEq] at h
        obtain ⟨rfl, rfl, rfl⟩ := h
        exact .giveBack
    | switch => simp [free] at h
  | goCo cos pc => simp [free] at h

theorem Free.free (h : Free b c k k' b' es) : NewQueue.free c k b = some (k', b', es) := by
  cases h with
  | nothing hnil => simp [NewQueue.free, hnil]
  | something hne => simp [NewQueue.free, hne]
  | front hcons => simp [NewQueue.free, hcons]
  | @pop c runningQue pNewCo hne =>
    obtain ⟨a, as, hcons⟩ := List.exists_cons_of_ne_nil hne
    simp [NewQueue.free, hcons]
  | next hc => cases c <;> simp_all [NewQueue.free]
  | @goCo cos pc => cases pc <;> rfl
  | _ => rfl

theorem Micro.of_micro (h : micro l b = some (l', b')) : Micro b l l' b' := by
  cases l with
  | index cos rest pc =>
    cases rest with
    | nil => simp [micro] at h
    | cons pCo rest =>
      simp only [micro, Option.some.injEq, Prod.mk.injEq] at h
      obtain ⟨rfl, rfl⟩ := h
      exact .index
  | push cos que pCo rest pc =>
    simp only [micro, Option.some.injEq, Prod.mk.injEq] at h
    obtain ⟨rfl, rfl⟩ := h
    exact .push
  | flip runningQue =>
    simp only [micro, Option.some.injEq, Prod.mk.injEq] at h
    obtain ⟨rfl, rfl⟩ := h
    exact .flip
  | flipped => simp [micro] at h

theorem Micro.micro (h : Micro b l l' b') : NewQueue.micro l b = some (l', b') := by
  cases h <;> rfl

/-! ### What it keeps -/

theorem Free.running (h : Free b c k k' b' es) : b'.running = b.running := by
  cases h <;> rfl

theorem Free.other (h : Free b c k k' b' es) (hk : k.Fits b (some t)) :
    b' = b ∧ ∀ b₁ : DoubleBuffer α, Free b₁ c k k' b₁ es := by
  cases h with
  | giveBack => exact ⟨rfl, fun _ ↦ .giveBack⟩
  | goCo => exact ⟨rfl, fun _ ↦ .goCo⟩
  | _ => exact absurd hk.1 (Option.some_ne_none t)

theorem Free.fits (h : Free b c k k' b' es) (hk : k.Fits b i) : k'.Fits b' i := by
  cases h with
  | read => exact ⟨hk.1, rfl⟩
  | @nothing c runningQue hnil =>
    obtain ⟨hi, rfl⟩ := hk
    exact ⟨hi, rfl, hnil⟩
  | @something c runningQue hne =>
    obtain ⟨hi, rfl⟩ := hk
    exact ⟨hi, rfl, hne⟩
  | @front c runningQue a as hcons =>
    obtain ⟨hi, rfl, -⟩ := hk
    exact ⟨hi, rfl, by rw [DoubleBuffer.front, hcons, List.head?_cons]⟩
  | @pop c runningQue pNewCo hne =>
    have hagrees : Stands (b.pop runningQue) i (some (.test runningQue)) := ⟨hk.1, hk.2.1⟩
    cases c <;> exact hagrees
  | switch | next hc | giveBack | goCo => exact hk

theorem Micro.fits (h : Micro b l l' b') (hl : l.Fits b i) : l'.Fits b' i := by
  cases h with
  | index => exact ⟨rfl, hl.1, hl.2⟩
  | push =>
    obtain ⟨hque, hsuffix, hpc⟩ := hl
    exact ⟨(List.suffix_cons _ _).trans hsuffix, hpc.of_eq rfl (front_pushOn hque _)⟩
  | flip => exact hl.1

/-- What a thread outside the sections relies on survives the accesses of one inside. -/
theorem Micro.keeps {j : Option θ} (h : Micro b l l' b') (hl : l.Fits b i) (hij : j ≠ i)
    (hk : k.Fits b j) : k.Fits b' j := by
  cases j with
  | some t => exact Control.Fits.other hk
  | none =>
    cases h with
    | index => exact hk
    | push => exact hk.of_eq rfl (front_pushOn hl.1 _)
    | flip => exact absurd hl.1.symm hij

theorem enter_fits (h : enter k = some l) (hk : k.Fits b i) : l.Fits b i := by
  cases k with
  | loop pc =>
    cases pc <;> simp only [enter, Option.some.injEq, reduceCtorEq] at h
    subst h
    exact ⟨hk.1, hk.2.1, hk.2.2⟩
  | user pc => simp [enter] at h
  | goCo cos pc =>
    simp only [enter, Option.some.injEq] at h
    subst h
    exact ⟨List.suffix_rfl, hk⟩

theorem leave_fits (h : leave l = some (k, es)) (hl : l.Fits b i) : k.Fits b i := by
  cases l with
  | index cos rest pc =>
    cases rest with
    | nil =>
      simp only [leave, Option.some.injEq, Prod.mk.injEq] at h
      obtain ⟨rfl, -⟩ := h
      exact hl.2
    | cons pCo rest => simp [leave] at h
  | push cos que pCo rest pc => simp [leave] at h
  | flip runningQue => simp [leave] at h
  | flipped =>
    simp only [leave, Option.some.injEq, Prod.mk.injEq] at h
    obtain ⟨rfl, -⟩ := h
    exact ⟨hl, trivial⟩

/-- **Left movers.** A step of the loop moves to before an access of another thread's section. -/
theorem Free.moves {b₁ : DoubleBuffer α} (hi : k.Fits b (none : Option θ)) (hl : l.Fits b (some t))
    (hm : Micro b l l' b₁) (hf : Free b₁ c k k' b' es) :
    ∃ z, Free b c k k' z es ∧ Micro z l l' b' := by
  cases hm with
  | @index cos rest pCo pc =>
    refine ⟨b', hf, ?_⟩
    rw [← hf.running]
    exact .index
  | flip => exact absurd hl.1 (Option.some_ne_none t)
  | @push cos rest que pCo pc =>
    have hque : b.running ≠ que := by simp [hl.1]
    cases hf with
    | read => exact ⟨b, .read, .push⟩
    | nothing hnil =>
      obtain ⟨-, rfl⟩ := hi
      rw [bufs_pushOn_of_ne hque] at hnil
      exact ⟨b, .nothing hnil, .push⟩
    | something hne =>
      obtain ⟨-, rfl⟩ := hi
      rw [bufs_pushOn_of_ne hque] at hne
      exact ⟨b, .something hne, .push⟩
    | front hcons =>
      obtain ⟨-, rfl, -⟩ := hi
      rw [bufs_pushOn_of_ne hque] at hcons
      exact ⟨b, .front hcons, .push⟩
    | pop hne =>
      obtain ⟨-, rfl, -⟩ := hi
      rw [bufs_pushOn_of_ne hque] at hne
      refine ⟨b.pop b.running, .pop hne, ?_⟩
      rw [pop_pushOn hque]
      exact .push
    | switch => exact ⟨b, .switch, .push⟩
    | next hc => exact ⟨b, .next hc, .push⟩
    | giveBack => exact ⟨b, .giveBack, .push⟩
    | goCo => exact ⟨b, .goCo, .push⟩

end Steps

/-! ## The sections are atomic -/

section Reduction

variable [DecidableEq θ]

theorem fits_update {x : DoubleBuffer α} {i : Option θ}
    {phase : Option θ → Critical.Phase (Control α) (Local α)}
    {f : Critical.Phase (Control α) (Local α)} (hf : Fits x i f)
    (hothers : ∀ j, j ≠ i → Fits x j (phase j)) (j : Option θ) :
    Fits x j (Function.update phase i f j) := by
  by_cases hji : j = i
  · subst hji
    rwa [Function.update_self]
  · rw [Function.update_of_ne hji]
    exact hothers j hji

theorem inv_step {s s' : Critical.State (Option θ) (Control α) (Local α) (DoubleBuffer α)}
    {a : Critical.Act (Option θ) (Choice α)} {es : List (Event α)}
    (h : Critical.Step (client α θ) s a s' es) (hs : Inv s) : Inv s' := by
  refine ⟨h.held hs.held, ?_⟩
  cases h with
  | @free i c k k' x es hout hfree =>
    have hf := Free.of_free hfree
    have hk : Fits s.shared i (.out k) := hout ▸ hs.fits i
    refine fits_update (hf.fits hk) fun j hji ↦ ?_
    cases i with
    | some t =>
      obtain rfl : x = s.shared := (hf.other hk).1
      exact hs.fits j
    | none =>
      obtain ⟨t, rfl⟩ := Option.ne_none_iff_exists'.mp hji
      exact (hs.fits _).other hf.running
  | @acquire i k l hno hout henter =>
    have hk : Fits s.shared i (.out k) := hout ▸ hs.fits i
    exact fits_update (enter_fits henter hk) fun j _ ↦ hs.fits j
  | @micro i l l' x hin hmicro =>
    have hm := Micro.of_micro hmicro
    have hl : Fits s.shared i (.inside l) := hin ▸ hs.fits i
    refine fits_update (hm.fits hl) fun j hji ↦ ?_
    -- nobody else is inside
    cases hj : s.phase j with
    | out k =>
      have hk : Fits s.shared j (.out k) := hj ▸ hs.fits j
      exact hm.keeps hl hji hk
    | inside l₁ =>
      have hholder := (hs.held i).mp ⟨l, hin⟩
      rw [(hs.held j).mp ⟨l₁, hj⟩, Option.some_inj] at hholder
      exact absurd hholder hji
  | @release i l k es hin hleave =>
    have hl : Fits s.shared i (.inside l) := hin ▸ hs.fits i
    exact fits_update (leave_fits hleave hl) fun j _ ↦ hs.fits j

theorem reducible : Critical.Reducible (client α θ) Inv where
  init := by
    intro s hs
    refine ⟨Critical.held_init hs, fun i ↦ ?_⟩
    subst hs
    cases i with
    | none => exact ⟨rfl, trivial⟩
    | some t => exact Option.some_ne_none t
  step := inv_step
  moves := by
    intro s o i c l l' k k' x y es hs hio hin hout hmicro hfree
    have hm := Micro.of_micro hmicro
    have hf := Free.of_free hfree
    have hk : Fits s.shared i (.out k) := hout ▸ hs.fits i
    have hl : Fits s.shared o (.inside l) := hin ▸ hs.fits o
    cases i with
    | some t =>
      obtain ⟨rfl, hany⟩ := hf.other (Control.Fits.other hk)
      exact ⟨s.shared, (hany s.shared).free, hmicro⟩
    | none =>
      obtain ⟨t, rfl⟩ := Option.ne_none_iff_exists'.mp (Ne.symm hio)
      obtain ⟨z, hfree', hmicro'⟩ := Free.moves hk hl hm hf
      exact ⟨z, hfree'.free, hmicro'.micro⟩

end Reduction

/-! ## Histories -/

/-- What an event does to the queues. -/
def Event.apply (b : DoubleBuffer α) : Event α → DoubleBuffer α
  | .push cos => b.push cos
  | .pop que _ => b.pop que
  | .flip => b.flip b.running

/-- What a history does to empty queues. -/
def replay (evs : List (Event α)) : DoubleBuffer α := evs.foldl Event.apply .empty

@[simp] theorem replay_append (evs evs' : List (Event α)) :
    replay (evs ++ evs') = evs'.foldl Event.apply (replay evs) := List.foldl_append

/-- An event comes where it may: the loop pops the front of the running queue, and flips when that
queue is empty. -/
def Legal (past : List (Event α)) : Event α → Prop
  | .push _ => True
  | .pop que a => que = (replay past).running ∧ (replay past).front.head? = some a
  | .flip => (replay past).front = []

/-- How far a section has got that found the queues as `b` and has left them as `b'`. -/
def Local.Done (b b' : DoubleBuffer α) : Local α → Prop
  | .index cos rest _ => ∃ done, cos = done ++ rest ∧ b' = b.push done
  | .push cos que pCo rest _ =>
    ∃ done, cos = done ++ pCo :: rest ∧ b' = b.push done ∧ que = (!b.running)
  | .flip _ => b' = b ∧ b.front = []
  | .flipped => b' = b.flip b.running ∧ b.front = []

theorem push_nil (b : DoubleBuffer α) : b.push [] = b := by
  rw [DoubleBuffer.push, List.append_nil, Function.update_eq_self]

theorem pushOn_push (b : DoubleBuffer α) (done : List α) (pCo : α) :
    pushOn (b.push done) (!b.running) pCo = b.push (done ++ [pCo]) := by
  simp [pushOn, DoubleBuffer.push]

section Histories

variable {b b' b'' : DoubleBuffer α} {i : Option θ} {k : Control α} {l l' : Local α}
  {es : List (Event α)}

theorem done_enter (h : enter k = some l) (hk : k.Fits b i) : l.Done b b := by
  cases k with
  | loop pc =>
    cases pc <;> simp only [enter, Option.some.injEq, reduceCtorEq] at h
    subst h
    exact ⟨rfl, hk.2.2⟩
  | user pc => simp [enter] at h
  | goCo cos pc =>
    simp only [enter, Option.some.injEq] at h
    subst h
    exact ⟨[], rfl, (push_nil b).symm⟩

theorem Micro.done (h : Micro b' l l' b'') (hb : l.Fits b' i) (hl : l.Done b b') :
    l'.Done b b'' := by
  cases h with
  | index =>
    obtain ⟨done, rfl, rfl⟩ := hl
    exact ⟨done, rfl, rfl, rfl⟩
  | @push cos rest que pCo pc =>
    obtain ⟨done, rfl, rfl, rfl⟩ := hl
    exact ⟨done ++ [pCo], by rw [List.append_assoc]; rfl, pushOn_push b done pCo⟩
  | flip =>
    obtain ⟨rfl, hnil⟩ := hl
    obtain ⟨-, rfl, -⟩ := hb
    exact ⟨rfl, hnil⟩

theorem done_leave (h : leave l = some (k, es)) (hl : l.Done b b') {past : List (Event α)}
    (hpast : b = replay past) : ∃ ev, es = [ev] ∧ Legal past ev ∧ b' = ev.apply b := by
  cases l with
  | index cos rest pc =>
    cases rest with
    | nil =>
      simp only [leave, Option.some.injEq, Prod.mk.injEq] at h
      obtain ⟨-, rfl⟩ := h
      obtain ⟨done, rfl, rfl⟩ := hl
      rw [List.append_nil]
      exact ⟨_, rfl, trivial, rfl⟩
    | cons pCo rest => simp [leave] at h
  | push cos que pCo rest pc => simp [leave] at h
  | flip runningQue => simp [leave] at h
  | flipped =>
    simp only [leave, Option.some.injEq, Prod.mk.injEq] at h
    obtain ⟨-, rfl⟩ := h
    obtain ⟨rfl, hnil⟩ := hl
    exact ⟨_, rfl, by rwa [Legal, ← hpast], rfl⟩

end Histories

section Runs

variable [DecidableEq θ] {t t' : Critical.Calm (Option θ) (Control α) (DoubleBuffer α)}
  {a : Critical.AtomicAct (Option θ) (Choice α)} {es : List (Event α)}
  {tr : List (Critical.AtomicAct (Option θ) (Choice α) × List (Event α))}

theorem done_through {n : ℕ} {o : Option θ} {l₀ l : Local α} {x : DoubleBuffer α}
    (hI : Inv t.toState) (henter : enter (t.control o) = some l₀)
    (hn : (client α θ).through n l₀ t.shared = some (l, x)) : l.Done t.shared x := by
  induction n generalizing l x with
  | zero =>
    simp only [Critical.Client.through, Option.some.injEq, Prod.mk.injEq] at hn
    obtain ⟨rfl, rfl⟩ := hn
    exact done_enter henter (hI.fits o)
  | succ n ih =>
    rw [Critical.Client.through_succ] at hn
    obtain ⟨⟨l₁, x₁⟩, hn₁, hmicro⟩ := Option.bind_eq_some_iff.mp hn
    have hI₀ : Inv (t.entered o l₀ t.shared) := reducible.step (.acquire rfl rfl henter) hI
    have hfits := (reducible.through hI₀ hn₁).fits o
    rw [t.phase_entered_self] at hfits
    exact (Micro.of_micro hmicro).done hfits (ih hn₁)

/-- Between sections, a step reports at most one event, which is legal and says what it does to the
queues. -/
theorem atomic_step (h : Critical.AtomicStep (client α θ) t a t' es) (hI : Inv t.toState)
    {past : List (Event α)} (hpast : t.shared = replay past) :
    (es = [] ∧ t'.shared = t.shared) ∨
      ∃ ev, es = [ev] ∧ Legal past ev ∧ t'.shared = ev.apply t.shared := by
  cases h with
  | @free i c k x es hfree =>
    have hk : (t.control i).Fits t.shared i := hI.fits i
    have hf := Free.of_free hfree
    generalize t.control i = k₀ at hk hf
    cases hf with
    | @pop c runningQue pNewCo hne =>
      refine .inr ⟨_, rfl, ?_, rfl⟩
      rw [Legal, ← hpast]
      exact hk.2
    | _ => exact .inl ⟨rfl, rfl⟩
  | whole henter hn hleave => exact .inr (done_leave hleave (done_through hI henter hn) hpast)

theorem inv_start : Inv (Critical.Calm.toState ⟨(client α θ).first, (client α θ).start⟩) :=
  reducible.init (s := Critical.Calm.toState ⟨(client α θ).first, (client α θ).start⟩) rfl

theorem atomic_run {t₀ : Critical.Calm (Option θ) (Control α) (DoubleBuffer α)}
    (hinit : (Critical.atomic (client α θ)).init t₀)
    (h : Run (Critical.atomic (client α θ)) Always t₀ tr t) :
    Inv t.toState ∧ t.shared = replay (events tr) ∧ Along Legal (events tr) := by
  subst hinit
  refine h.history (P := fun tr t ↦ Inv t.toState ∧ t.shared = replay (events tr) ∧
    Along Legal (events tr)) ⟨inv_start, rfl, along_nil⟩ ?_
  rintro tr t u a es - ⟨hI, hshared, hlegal⟩ - hstep
  have hst : Critical.AtomicStep (client α θ) t a u es := .of_step hstep
  rw [events_append, events_singleton]
  refine ⟨reducible.atomic_step hst hI, ?_⟩
  rcases atomic_step hst hI hshared with ⟨rfl, hsame⟩ | ⟨ev, rfl, hev, happly⟩
  · rw [List.append_nil]
    exact ⟨hsame.trans hshared, hlegal⟩
  · refine ⟨?_, along_snoc.mpr ⟨hlegal, hev⟩⟩
    rw [replay_append, happly, hshared]
    rfl

end Runs

/-! ## The queues under the spin lock -/

def Event.pushed : Event α → List α
  | .push cos => cos
  | _ => []

def Event.popped : Event α → List α
  | .pop _ a => [a]
  | _ => []

/-- A legal history is that of one queue. -/
theorem fifo_of_legal {evs : List (Event α)} (h : Along Legal evs) :
    evs.flatMap Event.pushed = evs.flatMap Event.popped ++ (replay evs).contents := by
  induction evs using List.reverseRecOn with
  | nil => rfl
  | append_singleton evs ev ih =>
    obtain ⟨hpast, hev⟩ := along_snoc.mp h
    rw [List.flatMap_append, List.flatMap_append, ih hpast, replay_append]
    cases ev with
    | push cos => simp [Event.pushed, Event.popped, Event.apply]
    | pop que a =>
      obtain ⟨rfl, hhead⟩ := hev
      obtain ⟨as, hcons⟩ := List.head?_eq_some_iff.mp hhead
      simp [Event.pushed, Event.popped, Event.apply, DoubleBuffer.contents_pop _ hcons]
    | flip => simp [Event.pushed, Event.popped, Event.apply, DoubleBuffer.contents_flip _ hev]

/-- A place in memory that the threads share. -/
inductive Loc
  /-- `runningNewQue_`. -/
  | runningNewQue
  /-- Queue number `que` of `newCoroutines_`. -/
  | newCoroutines (que : Bool)
deriving DecidableEq

/-- What the next step of a thread touches, and whether it writes there. -/
def accesses : Critical.Phase (Control α) (Local α) → List (Loc × Bool)
  | .out (.loop .read) => [(.runningNewQue, false)]
  | .out (.loop (.test runningQue)) => [(.newCoroutines runningQue, false)]
  | .out (.loop (.front runningQue)) => [(.newCoroutines runningQue, false)]
  | .out (.loop (.pop runningQue _)) => [(.newCoroutines runningQue, true)]
  | .inside (.index _ (_ :: _) _) => [(.runningNewQue, false)]
  | .inside (.push _ que _ _ _) => [(.newCoroutines que, true)]
  | .inside (.flip _) => [(.runningNewQue, true)]
  | _ => []

/-- Inside a section a thread touches the index, which only the thread of the processor writes, and
the queue that is not running; outside, only the thread of the processor touches anything, namely
the index, which it reads, and the running queue. -/
theorem Fits.access {b : DoubleBuffer α} {i : Option θ}
    {f : Critical.Phase (Control α) (Local α)} {m : Loc} {w : Bool} (h : Fits b i f)
    (ha : (m, w) ∈ accesses f) :
    (∃ l, f = .inside l) ∧
        (m = .runningNewQue ∧ (w = true → i = none) ∨ m = .newCoroutines (!b.running)) ∨
      i = none ∧ (∃ k, f = .out k) ∧
        (m = .runningNewQue ∧ w = false ∨ m = .newCoroutines b.running) := by
  cases f with
  | out k =>
    cases k with
    | user pc | goCo cos pc => simp [accesses] at ha
    | loop pc =>
      refine .inr ⟨h.1, ⟨_, rfl⟩, ?_⟩
      have hagrees : Agrees b pc := h.2
      cases pc <;> simp_all [accesses, Agrees]
  | inside l =>
    refine .inl ⟨⟨_, rfl⟩, ?_⟩
    have hl : l.Fits b i := h
    cases l with
    | index cos rest pc => cases rest <;> simp_all [accesses]
    | _ => simp_all [accesses, Local.Fits]

section Spin

variable [DecidableEq θ]
  {s₀ s : Spinlock.State (Option θ) (Control α) (Local α) (DoubleBuffer α)}
  {tr : List (Spinlock.Act (Option θ) (Choice α) × List (Event α))}

theorem inv_of_reachable (h : Reachable (Spinlock.machine (client α θ)) Always s) :
    ∃ holder, Inv (s.toState holder) := by
  obtain ⟨t, ht, himpl⟩ := Spinlock.simulation.reachable h
  refine ⟨t.holder, ?_⟩
  rw [← himpl.toState]
  exact ht.invariant reducible.init fun hI _ hstep ↦ reducible.step (.of_step hstep) hI

/-- **The sections are atomic.** Whatever the threads do and however their accesses interleave,
what they report is a history of one double-buffered queue: the loop pops what is at the front of
the running queue and flips when that queue is empty. The queues are what the history makes of them,
but for the part of its batch that a thread inside a section has already pushed; so every batch ends
up in one piece, and what is pushed is popped in the order of the sections. -/
theorem sections_linearizable (hinit : (Spinlock.machine (client α θ)).init s₀)
    (hrun : Run (Spinlock.machine (client α θ)) Always s₀ tr s) :
    Along Legal (events tr) ∧
      ((∀ i l, s.phase i ≠ .inside l) → s.shared = replay (events tr)) ∧
      (∀ i l, s.phase i = .inside l → l.Done (replay (events tr)) s.shared) ∧
      (events tr).flatMap Event.pushed =
        (events tr).flatMap Event.popped ++ (replay (events tr)).contents := by
  obtain ⟨u₀, tr', u, hinit', hrun', hev, hamid⟩ := Spinlock.atomic_of_run reducible hinit hrun
  obtain ⟨hI, hshared, hlegal⟩ := atomic_run hinit' hrun'
  rw [hev] at hshared hlegal
  refine ⟨hlegal, ?_, ?_, fifo_of_legal hlegal⟩
  · intro hout
    cases hamid with
    | calm hsame _ => exact hsame.trans hshared
    | entered hin _ _ _ => exact absurd hin (hout _ _)
  · intro i l' hin
    cases hamid with
    | calm _ hout =>
      have hi := hout i
      rw [hin] at hi
      cases hi
    | @entered o n l₀ l ho hout henter hn =>
      obtain rfl : i = o := by
        by_contra hne
        have hi := hout i hne
        rw [hin] at hi
        cases hi
      rw [hin, Spinlock.Phase.inside.injEq] at ho
      subst ho
      have hdone := done_through hI henter hn
      rwa [hshared] at hdone

/-- A thread pushes `7` and `8` while the loop finds its running queue empty and waits for the lock;
the loop then flips, and pops `7`. -/
def toPop : List (Spinlock.Act (Option Unit) (Choice ℕ)) :=
  [.free (some ()) (.goCo [7, 8]), .lock (some ()), .cas (some ()), .micro (some ()),
    .free none .go, .free none .go, .micro (some ()), .free none .go, .lock none, .cas none,
    .retry none, .micro (some ()), .micro (some ()), .unlock (some ()), .cas none, .micro none,
    .unlock none, .free none .go, .free none .go, .free none .go, .free none .go,
    .free none .switch]

/-- The batch is one section, and `8` is left of it. -/
theorem sections_linearizable_pop : ∃ s₀ s tr,
    (Spinlock.machine (client ℕ Unit)).init s₀ ∧
      Run (Spinlock.machine (client ℕ Unit)) Always s₀ tr s ∧
      events tr = [.push [7, 8], .flip, .pop true 7] ∧
      (events tr).flatMap Event.pushed =
        (events tr).flatMap Event.popped ++ (replay (events tr)).contents := by
  let s₀ : Spinlock.State (Option Unit) (Control ℕ) (Local ℕ) (DoubleBuffer ℕ) :=
    ⟨Spinlock.created, .empty, fun i ↦ .out ((client ℕ Unit).start i)⟩
  let r := (Spinlock.machine (client ℕ Unit)).after Always s₀ toPop
  have hrun : Run (Spinlock.machine (client ℕ Unit)) Always s₀ r.2 r.1 := run_after toPop
  exact ⟨_, _, _, rfl, hrun, by decide, (sections_linearizable rfl hrun).2.2.2⟩

/-- **No races.** In every state reached, no two threads are about to touch the same queue or the
same index, one of them writing; and where the loop calls `front` or `pop`, its queue is not empty
and `pop` removes what `front` has returned. -/
theorem race_free (h : Reachable (Spinlock.machine (client α θ)) Always s) :
    (∀ i j m w, i ≠ j → (m, true) ∈ accesses (s.phase i).toPhase →
      (m, w) ∉ accesses (s.phase j).toPhase) ∧
    (∀ i runningQue, s.phase i = .out (.loop (.front runningQue)) →
      s.shared.bufs runningQue ≠ []) ∧
    ∀ i runningQue pNewCo, s.phase i = .out (.loop (.pop runningQue pNewCo)) →
      (s.shared.bufs runningQue).head? = some pNewCo := by
  obtain ⟨holder, hI⟩ := inv_of_reachable h
  have hout : ∀ {i k}, s.phase i = .out k → k.Fits s.shared i := by
    intro i k hi
    have hfits : Fits s.shared i (s.phase i).toPhase := hI.fits i
    rw [hi] at hfits
    exact hfits
  refine ⟨?_, ?_, ?_⟩
  · intro i j m w hij hi hj
    rcases (hI.fits i).access hi with ⟨⟨l, hl⟩, hm⟩ | ⟨rfl, -, hm⟩ <;>
      rcases (hI.fits j).access hj with ⟨⟨l', hl'⟩, hm'⟩ | ⟨rfl, -, hm'⟩
    · -- two threads inside
      have hholder := (hI.held i).mp ⟨l, hl⟩
      rw [(hI.held j).mp ⟨l', hl'⟩, Option.some_inj] at hholder
      exact hij hholder.symm
    · rcases hm with ⟨rfl, hi'⟩ | rfl
      · exact hij (hi' rfl)
      · simp at hm'
    · rcases hm with ⟨-, hread⟩ | rfl
      · exact absurd hread (by simp)
      · simp at hm'
    · exact hij rfl
  · intro i runningQue hi
    obtain ⟨-, rfl, hne⟩ := hout hi
    exact hne
  · intro i runningQue pNewCo hi
    obtain ⟨-, rfl, hhead⟩ := hout hi
    exact hhead

/-- There, with the loop at its first `pop`. -/
theorem race_free_pop : ∃ s : Spinlock.State (Option Unit) (Control ℕ) (Local ℕ) (DoubleBuffer ℕ),
    s.phase none = .out (.loop (.pop true 7)) ∧ (s.shared.bufs true).head? = some 7 := by
  let s₀ : Spinlock.State (Option Unit) (Control ℕ) (Local ℕ) (DoubleBuffer ℕ) :=
    ⟨Spinlock.created, .empty, fun i ↦ .out ((client ℕ Unit).start i)⟩
  let r := (Spinlock.machine (client ℕ Unit)).after Always s₀ toPop.dropLast
  have hrun : Run (Spinlock.machine (client ℕ Unit)) Always s₀ r.2 r.1 := run_after _
  have hat : r.1.phase none = .out (.loop (.pop true 7)) := rfl
  exact ⟨r.1, hat, (race_free ⟨s₀, r.2, rfl, hrun⟩).2.2 none true 7 hat⟩

end Spin

/-! ## The queues in the model of the runtime -/

/-- An event of the runtime, as the queues of `q` see it. -/
def Event.ofRuntime (q : Pid) : Copnet.Event → List (Event Addr)
  | .push p cos => if p = q then [.push cos] else []
  | .pop p que a => if p = q then [.pop que a] else []
  | .flip p => if p = q then [.flip] else []
  | _ => []

def pointers (b : DoubleBuffer Entry) : DoubleBuffer Addr :=
  ⟨fun que ↦ (b.bufs que).map Entry.co, b.running⟩

theorem pointers_push (b : DoubleBuffer Entry) (cos : List Addr) (call : ℕ) :
    pointers (b.push (cos.map (⟨·, call⟩))) = (pointers b).push cos := by
  rw [pointers, DoubleBuffer.push, DoubleBuffer.push, DoubleBuffer.mk.injEq]
  refine ⟨?_, rfl⟩
  funext que
  by_cases hque : que = !b.running
  · subst hque
    simp [pointers, Function.comp_def]
  · simp [pointers, Function.update_of_ne hque]

theorem pointers_pop (b : DoubleBuffer Entry) (que : Bool) :
    pointers (b.pop que) = (pointers b).pop que := by
  rw [pointers, DoubleBuffer.pop, DoubleBuffer.pop, DoubleBuffer.mk.injEq]
  refine ⟨?_, rfl⟩
  funext que'
  by_cases hque : que' = que
  · subst hque
    simp [pointers]
  · simp [pointers, Function.update_of_ne hque]

theorem ofRuntime_resumeEvents {q : Pid} {pCo : Option Addr} {es : List Copnet.Event}
    (h : ResumeEvents q pCo es) : es.flatMap (Event.ofRuntime q) = [] := by
  rcases h with rfl | ⟨a, -, rfl⟩ <;> rfl

/-- A step of the runtime does to the queues what its events say. -/
theorem effect_apply {clock : ℤ} {call : ℕ} {q : Pid} {P : Processor} {act : Action}
    {L : LoopState} {es : List Copnet.Event} (h : Effect clock call q P act L es)
    (hP : P.loopState.Drains) {past : List (Event Addr)} (hpast : pointers P.queue = replay past) :
    (es.flatMap (Event.ofRuntime q) = [] ∧ pointers L.queue = pointers P.queue) ∨
      ∃ ev, es.flatMap (Event.ofRuntime q) = [ev] ∧ Legal past ev ∧
        pointers L.queue = ev.apply (pointers P.queue) := by
  cases h with
  | push cos hact =>
    exact .inr ⟨.push cos, by simp [Event.ofRuntime], trivial, pointers_push ..⟩
  | @pop rq e rest es hexec hpc hcons hes =>
    simp only [LoopState.Drains, Processor.loopState, hpc] at hP
    refine .inr ⟨.pop rq e.co, ?_, ?_, pointers_pop ..⟩
    · rw [List.flatMap_cons, ofRuntime_resumeEvents hes, Event.ofRuntime, if_pos rfl]
      rfl
    · rw [Legal, ← hpast]
      obtain ⟨rfl, -⟩ := hP
      exact ⟨rfl, by simp [DoubleBuffer.front, pointers, hcons]⟩
  | @flip rq hexec hpc =>
    simp only [LoopState.Drains, Processor.loopState, hpc] at hP
    obtain ⟨rfl, hnil⟩ := hP
    refine .inr ⟨.flip, by simp [Event.ofRuntime], ?_, rfl⟩
    rw [Legal, ← hpast]
    simpa [DoubleBuffer.front, pointers] using hnil
  | timer hexec hpc ha hes | event hexec hpc hpCo hes =>
    exact .inl ⟨ofRuntime_resumeEvents hes, rfl⟩
  | reclaimEnd hexec hpc hend => exact .inl ⟨rfl, rfl⟩
  | _ => exact .inl ⟨rfl, rfl⟩

/-- **The model of the runtime has the same queues.** There every protected section is one step;
what each processor's queues hold is, in every run, what a legal history makes of them. Legal is
what `sections_linearizable` shows the histories of the interleaved accesses to be. -/
theorem runtime_linearizable {s₀ s : Sys} {tr : List (Action × List Copnet.Event)}
    (hinit : Copnet.machine.init s₀) (hrun : Run Copnet.machine Always s₀ tr s) (q : Pid) :
    Along Legal ((events tr).flatMap (Event.ofRuntime q)) ∧
      pointers (s.pros q).queue = replay ((events tr).flatMap (Event.ofRuntime q)) := by
  refine hrun.history (P := fun tr s ↦ Along Legal ((events tr).flatMap (Event.ofRuntime q)) ∧
    pointers (s.pros q).queue = replay ((events tr).flatMap (Event.ofRuntime q))) ?_ ?_
  · obtain ⟨clock, rfl⟩ := hinit
    exact ⟨along_nil, rfl⟩
  · rintro tr s act s' es hrun ⟨hlegal, hqueue⟩ - hstep
    have hdrains := drains_run hrun (drains_init hinit q)
    have heff := effect_apply ((Step.of_step hstep).effect q) hdrains hqueue
    rw [flatMap_filter (f := Event.ofRuntime q)] at heff
    · rw [events_append, events_singleton, List.flatMap_append]
      rcases heff with ⟨hnil, hsame⟩ | ⟨ev, hone, hev, happly⟩
      · rw [hnil, List.append_nil]
        exact ⟨hlegal, hsame.trans hqueue⟩
      · rw [hone, replay_append]
        refine ⟨along_snoc.mpr ⟨hlegal, hev⟩, ?_⟩
        rw [← hqueue]
        exact happly
    · intro ev hev
      cases ev <;> simp_all [Copnet.Event.inLoop, Event.ofRuntime]

/-- Coroutine `8` is pushed between the flip and the pop of coroutine `7`. -/
theorem runtime_linearizable_two : ∃ s tr, Run Copnet.machine Always (Sys.fresh 0) tr s ∧
    (events tr).flatMap (Event.ofRuntime 0) = [.push [7], .flip, .push [8], .pop true 7] ∧
      pointers (s.pros 0).queue = replay [.push [7], .flip, .push [8], .pop true 7] := by
  let r := Copnet.machine.after Always (Sys.fresh 0) (toFirstFlip ++ toSecondFlip)
  have hrun : Run Copnet.machine Always (Sys.fresh 0) r.2 r.1 := run_after _
  have hevents : (events r.2).flatMap (Event.ofRuntime 0) =
      [.push [7], .flip, .push [8], .pop true 7] := by decide
  exact ⟨_, _, hrun, hevents, hevents ▸ (runtime_linearizable ⟨0, rfl⟩ hrun 0).2⟩

end NewQueue

end Copnet
