import Mathlib.Data.List.Basic

/-!
# Ledgers

A ledger tells how often each item is at each place, over places and items of any type. A step of a
system that hands items from one container to another changes its ledger by finitely many entries
taken out and finitely many put in, and `Moves` says exactly that, for every place and item at once.
So one statement about a step carries both what it does to the items it moves and the frame: an item
that is in neither list is where it was.

What is to be said of a single item is usually the list of the places where it is, `Holds`; lists
with the same counts hold the same.
-/

/-- How often each item is at each place. -/
abbrev Ledger (π α : Type*) := π → α → ℕ

namespace Ledger

variable {π α : Type*} [DecidableEq π] [DecidableEq α] {l l' l'' : Ledger π α}
  {out inn out' inn' : List (π × α)} {a : α} {ps qs : List π}

/-- The second ledger is the first one with the entries `out` taken out and `inn` put in. -/
def Moves (l l' : Ledger π α) (out inn : List (π × α)) : Prop :=
  ∀ x a, l' x a + out.count (x, a) = l x a + inn.count (x, a)

/-- Item `a` is at the places `ps`, as often as they occur there, and at no others. -/
def Holds (l : Ledger π α) (a : α) (ps : List π) : Prop := ∀ x, l x a = ps.count x

theorem Moves.refl (l : Ledger π α) : Moves l l [] [] := fun _ _ ↦ rfl

theorem Moves.of_eq (h : l' = l) : Moves l l' [] [] := h ▸ .refl l

theorem Moves.trans (h : Moves l l' out inn) (h' : Moves l' l'' out' inn') :
    Moves l l'' (out ++ out') (inn ++ inn') := by
  intro x a
  have h₁ := h x a
  have h₂ := h' x a
  rw [List.count_append, List.count_append]
  omega

/-- **Frame.** An item that does not move stays where it is. -/
theorem Moves.frame (h : Moves l l' out inn) (ha : ∀ e ∈ out ++ inn, e.2 ≠ a) (x : π) :
    l' x a = l x a := by
  have hout : out.count (x, a) = 0 := List.count_eq_zero.mpr fun hmem ↦
    ha _ (List.mem_append_left _ hmem) rfl
  have hinn : inn.count (x, a) = 0 := List.count_eq_zero.mpr fun hmem ↦
    ha _ (List.mem_append_right _ hmem) rfl
  have := h x a
  omega

theorem Holds.frame (hl : Holds l a ps) (h : Moves l l' out inn)
    (ha : ∀ e ∈ out ++ inn, e.2 ≠ a) : Holds l' a ps := fun x ↦ by rw [h.frame ha, hl x]

theorem Holds.moves (hl : Holds l a ps) (h : Moves l l' out inn)
    (hcount : ∀ x, qs.count x + out.count (x, a) = ps.count x + inn.count (x, a)) :
    Holds l' a qs := by
  intro x
  have h₁ := h x a
  have h₂ := hcount x
  rw [hl x] at h₁
  omega

end Ledger
