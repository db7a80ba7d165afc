import Copnet.Foundation.Transition

/-!
# Forward simulations

One machine implements another when its states can be related to the other's so that each of its
steps is matched by a run of the other that reports the same events: by one step, by several, or by
none at all. What the implementation does in a whole run is then what the other machine does in
some run, and a law about the histories of the one is a law about those of the other.
-/

namespace Transition

variable {σ τ α β ε : Type*}

/-- Each guarded step of `M` is matched by a guarded run of `N` with the same events. -/
structure Simulation (M : Machine σ α ε) (C : σ → α → Prop) (N : Machine τ β ε)
    (D : τ → β → Prop) (R : σ → τ → Prop) : Prop where
  init : ∀ {s}, M.init s → ∃ t, N.init t ∧ R s t
  step : ∀ {s s' t a es}, R s t → C s a → M.step s a = some (s', es) →
    ∃ tr t', Run N D t tr t' ∧ events tr = es ∧ R s' t'

section Single

variable {M : Machine σ α ε} {C : σ → α → Prop} {s t : σ} {a : α} {es : List ε}

theorem Run.single (hc : C s a) (h : M.step s a = some (t, es)) : Run M C s [(a, es)] t :=
  .snoc .nil hc h

theorem Run.one (hc : C s a) (h : M.step s a = some (t, es)) :
    ∃ tr, Run M C s tr t ∧ events tr = es :=
  ⟨_, .single hc h, events_singleton a es⟩

end Single

namespace Simulation

variable {M : Machine σ α ε} {C : σ → α → Prop} {N : Machine τ β ε} {D : τ → β → Prop}
  {R : σ → τ → Prop}

/-- A run is matched by a run with the same history. -/
theorem run (h : Simulation M C N D R) {s s' : σ} {t : τ} {tr : List (α × List ε)}
    (hR : R s t) (hrun : Run M C s tr s') :
    ∃ tr' t', Run N D t tr' t' ∧ events tr' = events tr ∧ R s' t' := by
  induction hrun with
  | nil => exact ⟨[], t, .nil, rfl, hR⟩
  | snoc _ hc hstep ih =>
    obtain ⟨tr₁, t₁, hrun₁, hev₁, hR₁⟩ := ih
    obtain ⟨tr₂, t₂, hrun₂, hev₂, hR₂⟩ := h.step hR₁ hc hstep
    refine ⟨tr₁ ++ tr₂, t₂, hrun₁.trans hrun₂, ?_, hR₂⟩
    rw [events_append, events_append, events_singleton, hev₁, hev₂]

theorem reachable (h : Simulation M C N D R) {s : σ} (hs : Reachable M C s) :
    ∃ t, Reachable N D t ∧ R s t := by
  obtain ⟨s₀, tr, hinit, hrun⟩ := hs
  obtain ⟨t₀, hinit', hR⟩ := h.init hinit
  obtain ⟨tr', t, hrun', -, hR'⟩ := h.run hR hrun
  exact ⟨t, ⟨t₀, tr', hinit', hrun'⟩, hR'⟩

end Simulation

end Transition
