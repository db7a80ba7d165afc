import Copnet.Runtime.History
import Mathlib.Algebra.BigOperators.Group.Finset.Piecewise

/-!
# No stale resumption

The lifecycle of coroutines, over whole runs. The pointer to a coroutine is at one place at most
among those from which a wake-up is still to come. Once its function has returned it is at none, so
that the block can go back to the pool; and that happens before the loop is back at the top.
-/

open Transition Ledger

namespace Copnet

/-! ## Sources -/

/-- The places from which a wake-up is still to come. The copy in the rest of `actCoroutines_`
counts together with the registration. -/
def Place.IsSource : Place → Prop
  | .pro _ .queue | .pro _ .sleep | .pro _ (.reg _) | .mu _ => True
  | _ => False

/-- The one place from which the wake-up will come. -/
def Source.place? (p : Pid) : Source → Option Place
  | .idle => none
  | .queue => some (.pro p .queue)
  | .sleep => some (.pro p .sleep)
  | .event fd _ => some (.pro p (.reg fd))
  | .waiting m => some (.mu m)

/-- The one place from which a wake-up of the coroutine will come. -/
def Life.place? : Life → Option Place
  | .queued c => some (.pro c.pMyProcessor .queue)
  | .exec c _ src | .parked c src => src.place? c.pMyProcessor
  | _ => none

theorem Source.count_places {p : Pid} {src : Source} {x : Place} (hx : x.IsSource) :
    (src.places p).count x = if src.place? p = some x then 1 else 0 := by
  rcases src with _ | _ | _ | ⟨fd, _ | _⟩ | m
  all_goals
    rcases x with ⟨q, _ | _ | fd' | _ | _ | _ | r⟩ | n | ⟨t, r⟩ <;>
      simp [Place.IsSource, Source.places, Source.place?, List.count_cons] at hx ⊢

theorem Life.count_places {ℓ : Life} {x : Place} (hx : x.IsSource) :
    ℓ.places.count x = if ℓ.place? = some x then 1 else 0 := by
  have hset : ∀ q, Place.pro q .inSet ≠ x := by
    rintro q rfl
    exact hx
  cases ℓ with
  | exec c code src | parked c src =>
    rw [Life.places, List.count_cons_of_ne (hset _), Source.count_places hx]
    rfl
  | built c maker =>
    have hmake : maker.place c.pMyProcessor ≠ x := by
      rintro rfl
      cases maker <;> exact hx
    simp [Life.places, Life.place?, hmake]
  | queued c => simp [Life.places, Life.place?, List.count_cons]
  | returned c =>
    have hdead : Place.pro c.pMyProcessor .dead ≠ x := by
      rintro rfl
      exact hx
    simp [Life.places, Life.place?, hset, hdead]
  | free => simp [Life.places, Life.place?]

theorem Fits.count_source {s : Sys} {a : Addr} {ℓ : Life} (hf : Fits s a ℓ) {x : Place}
    (hx : x.IsSource) : s.ledger x a = if ℓ.place? = some x then 1 else 0 := by
  rw [hf.places, Life.count_places hx]

/-- In total a pointer is at one source at most. -/
theorem Fits.sum_sources {s : Sys} {a : Addr} {ℓ : Life} (hf : Fits s a ℓ) {X : Finset Place}
    (hX : ∀ x ∈ X, x.IsSource) : ∑ x ∈ X, s.ledger x a ≤ 1 := by
  rw [Finset.sum_congr rfl fun x hx ↦ hf.count_source (hX x hx)]
  cases ℓ.place? with
  | none => simp
  | some y =>
    simp only [Option.some.injEq, Finset.sum_ite_eq]
    split <;> omega

theorem Fits.of_active {s : Sys} {a : Addr} {ℓ : Life} {q : Pid} (hf : Fits s a ℓ)
    (h : some a ∈ (s.pros q).activeRest) :
    (s.pros q).activeRest.count (some a) = 1 ∧
      ∃ fd, (s.pros q).epoller.registered fd = some (some a) := by
  have hcount : s.ledger (.pro q .act) a = (s.pros q).activeRest.count (some a) :=
    List.count_filterMap
  obtain ⟨c, fd, rfl, rfl⟩ := hf.of_act (by rw [hcount]; exact (List.count_pos_iff.mpr h).ne')
  refine ⟨?_, fd, ?_⟩
  · rw [← hcount, hf.places]
    simp [Life.places, Source.places]
  · rw [hf.registered]
    simp [Life.places, Source.places]

theorem Recorded.not_returned {s : Sys} {evs : List Event} {N : ℕ} {L : Addr → Life}
    (h : Recorded evs N L) (hL : Lives s L) {a : Addr} {x : Place} (hx : x.IsSource)
    (hne : s.ledger x a ≠ 0) :
    ∃ c, s.cos a = some c ∧ ∀ p b, .ret p b c.serial ∉ evs := by
  rw [(hL.fits a).count_source hx] at hne
  have hage : (L a).age ≤ 2 ∧ (L a).co ≠ none := by
    cases hlife : L a <;> simp_all [Life.age, Life.place?, Life.co]
  obtain ⟨c, hco⟩ := Option.ne_none_iff_exists'.mp hage.2
  refine ⟨c, by rw [(hL.fits a).co, hco], fun p b hret ↦ ?_⟩
  have hmem : .ret p b c.serial ∈ history c.serial evs := mem_history.mpr ⟨hret, rfl⟩
  rw [(h.here a c hco).2] at hmem
  have htwo := List.take_subset_take_left _ hage.1 hmem
  simp [lifetime] at htwo

/-! ## Reclaiming -/

/-- Before the loop and at its top nothing is left to be reclaimed. -/
def Processor.Swept (P : Processor) : Prop := P.pc = .start ∨ P.pc = .top → P.removedCo = []

section Steps

variable {s s' : Sys} {act : Action} {es : List Event} {q : Pid}

theorem ThreadEffect.swept {P P' : Processor} (h : ThreadEffect q P P' es) (hpaced : P.Paced)
    (hP : P.Swept) : P'.Swept := by
  intro htop
  cases h with
  | stay hexec hpc hrem =>
    rw [hrem]
    exact hP (hpc ▸ htop)
  | suspend hexec _ hpc | ret hexec _ _ hpc =>
    -- a coroutine executes in a call of `resume` only
    have hres := hpaced hexec
    rw [← hpc] at hres
    rcases htop with htop | htop <;> exact (htop ▸ hres).elim
  | init hexec hexec' hpc hpc' hrem =>
    rw [hrem]
    exact hP (.inl hpc)
  | resume hexec hexec' hpc hrem => rcases htop with htop | htop <;> exact (htop ▸ hpc).elim
  | loop hexec hexec' hpc hindex hrem => exact absurd htop (not_or.mpr hpc)
  | top hexec hexec' hpc hrem => exact hrem

theorem Step.of_delete (hs : Step s act s' es) {a : Addr} {n : ℕ} (hmem : .delete q a n ∈ es) :
    a ∉ (s'.pros q).coSet ∧ s'.cos a = none := by
  cases hs with
  | reclaim hexec hpc ha hco =>
    simp only [List.mem_singleton, Event.delete.injEq] at hmem
    obtain ⟨rfl, rfl, rfl⟩ := hmem
    simp
  | timer hexec hpc ha hres | event hexec hpc hpCo hres | pop hexec hpc hcons hres =>
    cases hres <;> simp at hmem
  | _ => simp at hmem

end Steps

theorem swept_of_reachable {s : Sys} (h : Reachable machine Disciplined s) (q : Pid) :
    (s.pros q).Swept := by
  refine (h.invariant (P := fun s ↦ (∃ L, Lives s L) ∧ ∀ q, (s.pros q).Swept) (fun hinit ↦ ?_)
    ?_).2 q
  · refine ⟨⟨_, lives_of_init hinit⟩, fun q _ ↦ ?_⟩
    obtain ⟨clock, rfl⟩ := hinit
    rfl
  · rintro t u act es ⟨⟨L, hL⟩, hswept⟩ hdisc hstep
    have hs := Step.of_step hstep
    obtain ⟨L', hL', -⟩ := hs.lives hdisc hL
    exact ⟨⟨L', hL'⟩, fun q ↦ (hs.threadEffect q).swept (hL.paced q) (hswept q)⟩

theorem Recorded.reclaimed {s : Sys} {evs : List Event} {N : ℕ} {L : Addr → Life}
    (h : Recorded evs N L) (hL : Lives s L) {p : Pid} (hswept : (s.pros p).Swept)
    (hpc : (s.pros p).pc = .top) {a : Addr} {n : ℕ} (hret : .ret p a n ∈ evs) :
    evs.count (.delete p a n) = 1 := by
  have hmem : .ret p a n ∈ history n evs := mem_history.mpr ⟨hret, rfl⟩
  have hcount : evs.count (.delete p a n) = (history n evs).count (.delete p a n) := by
    rw [history, List.count_filter (by simp [Event.serial?])]
  rw [hcount]
  rcases h.gone n (h.lt_of_mem hmem) with ⟨b, c, hco, rfl⟩ | ⟨b, q, hfull⟩
  · obtain ⟨-, hhist⟩ := h.here b c hco
    rw [hhist] at hmem
    have hfit := hL.fits b
    cases hlife : L b with
    | returned d =>
      -- it would still be on removedCo_
      rw [hlife] at hco hmem hfit
      cases hco
      simp only [Life.age, lifetime, List.take_succ_cons, List.take_zero, List.mem_cons,
        reduceCtorEq, Event.ret.injEq, List.not_mem_nil, or_false, false_or] at hmem
      obtain ⟨rfl, -, -⟩ := hmem
      have hdead := hfit.places (.pro c.pMyProcessor .dead)
      simp [Sys.ledger, Processor.ledger, Processor.removedRest, hpc, hswept (.inr hpc),
        Life.places] at hdead
    | _ => simp [hlife, Life.age, lifetime] at hmem
  · rw [hfull] at hmem ⊢
    simp only [lifetime, List.mem_cons, reduceCtorEq, Event.ret.injEq, and_true, List.not_mem_nil,
      or_false, false_or] at hmem
    obtain ⟨rfl, rfl⟩ := hmem
    simp [lifetime]

/-- **Coroutine lifecycle and no stale resume.** A coroutine is built, enters its function, returns
and is reclaimed, each at most once and in this order; a pointer is at one source of wake-ups at
most, and only while the coroutine is there and has not returned; and when the loop is back at the
top, what has returned has been erased from `coSet_` and reclaimed once. -/
theorem coroutine_lifecycle {s₀ s : Sys} {tr : List (Action × List Event)}
    (hinit : machine.init s₀) (h : Run machine Disciplined s₀ tr s) :
    (∀ n, ∃ a q, history n (events tr) <+:
      [.made a n q, .enter a n, .ret q a n, .delete q a n]) ∧
    (∀ a (X : Finset Place), (∀ x ∈ X, x.IsSource) → ∑ x ∈ X, s.ledger x a ≤ 1) ∧
    (∀ q a, some a ∈ (s.pros q).activeRest → (s.pros q).activeRest.count (some a) = 1 ∧
      ∃ fd, (s.pros q).epoller.registered fd = some (some a)) ∧
    (∀ x a, x.IsSource → s.ledger x a ≠ 0 →
      ∃ c, s.cos a = some c ∧ ∀ p b, .ret p b c.serial ∉ events tr) ∧
    (∀ p, (s.pros p).pc = .top → ∀ a n, .ret p a n ∈ events tr →
      (events tr).count (.delete p a n) = 1) ∧
    ∀ act s' es p a n, machine.step s act = some (s', es) → .delete p a n ∈ es →
      a ∉ (s'.pros p).coSet ∧ s'.cos a = none := by
  obtain ⟨L, hL, hrec⟩ := recorded_run hinit h
  refine ⟨hrec.history_prefix, fun a X hX ↦ (hL.fits a).sum_sources hX,
    fun q a hmem ↦ (hL.fits a).of_active hmem, fun x a hx hne ↦ hrec.not_returned hL hx hne,
    fun p hpc a n hret ↦ ?_, fun act s' es p a n hstep hmem ↦ (Step.of_step hstep).of_delete hmem⟩
  exact hrec.reclaimed hL (swept_of_reachable ⟨s₀, tr, hinit, h⟩ p) hpc hret

/-- A coroutine returns, and the loop gets back to the top. -/
def thenReturn : List Action := [.user 0 .ret] ++ List.replicate 5 (.loop 0)

theorem coroutine_lifecycle_returned : ∃ s tr, Run machine Disciplined (Sys.fresh 0) tr s ∧
    .ret 0 7 0 ∈ events tr ∧ (events tr).count (.delete 0 7 0) = 1 := by
  let r := machine.after Disciplined (Sys.fresh 0) (toUser ++ thenReturn)
  have h : Run machine Disciplined (Sys.fresh 0) r.2 r.1 := run_after _
  have hret : .ret 0 7 0 ∈ events r.2 := by decide
  obtain ⟨-, -, -, -, hdelete, -⟩ := coroutine_lifecycle ⟨0, rfl⟩ h
  exact ⟨_, _, h, hret, hdelete 0 (by decide) 7 0 hret⟩

end Copnet
