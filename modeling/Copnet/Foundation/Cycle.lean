import Mathlib.Order.Interval.Finset.Nat

/-!
# Walking round a cycle

Somebody who goes round `m` places, one place further each time, is after `k` steps from the place
`c` at `(c + k) % m`. `cycle m c k` lists the places of the first `k` steps. A whole round is at
every place once, wherever it starts, and so the visits to two places differ by at most one however
long the walk is.
-/

/-- The first `k` places of a walk round `m` places that starts at `c`. -/
def cycle (m c k : ℕ) : List ℕ := (List.range' c k).map (· % m)

variable {m c k l i j : ℕ}

@[simp] theorem length_cycle : (cycle m c k).length = k := by
  rw [cycle, List.length_map, List.length_range']

theorem cycle_succ : cycle m c (k + 1) = c % m :: cycle m (c + 1) k := by
  rw [cycle, List.range'_succ, List.map_cons]
  rfl

theorem cycle_add : cycle m c (k + l) = cycle m c k ++ cycle m (c + k) l := by
  rw [cycle, ← List.range'_append_1, List.map_append]
  rfl

theorem cycle_congr {c' : ℕ} (h : c % m = c' % m) : cycle m c k = cycle m c' k := by
  induction k generalizing c c' with
  | zero => rfl
  | succ k ih =>
    have hnext : (c + 1) % m = (c' + 1) % m := by rw [Nat.add_mod, h, ← Nat.add_mod]
    rw [cycle_succ, cycle_succ, h, ih hnext]

/-- **A round is at every place once.** -/
theorem cycle_perm (m c : ℕ) : (cycle m c m).Perm (List.range m) := by
  have hIco : Multiset.Ico c (c + m) = (List.range' c m : Multiset ℕ) := by
    change (List.range' c (c + m - c) : Multiset ℕ) = _
    rw [Nat.add_sub_cancel_left]
  have hround := Nat.multiset_Ico_map_mod c m
  rw [hIco, Multiset.map_coe] at hround
  exact Multiset.coe_eq_coe.mp hround

theorem nodup_cycle (hk : k ≤ m) : (cycle m c k).Nodup := by
  obtain ⟨l, rfl⟩ := Nat.exists_eq_add_of_le hk
  have hround : (cycle (k + l) c (k + l)).Nodup := (cycle_perm _ c).nodup_iff.mpr List.nodup_range
  rw [cycle_add] at hround
  exact hround.of_append_left

theorem count_cycle_round (hi : i < m) : (cycle m c m).count i = 1 := by
  rw [(cycle_perm m c).count_eq]
  exact List.count_eq_one_of_mem List.nodup_range (List.mem_range.mpr hi)

/-- **Visits are even.** However long the walk, no place is visited more than once oftener than
another. -/
theorem count_cycle_le (hi : i < m) (hj : j < m) :
    (cycle m c k).count i ≤ (cycle m c k).count j + 1 := by
  induction k using Nat.strong_induction_on generalizing c with
  | _ k ih =>
    rcases lt_or_ge k m with hlt | hge
    · have := List.nodup_iff_count_le_one.mp (nodup_cycle (c := c) hlt.le) i
      omega
    -- the first round is even, and the rest is a shorter walk
    · obtain ⟨l, rfl⟩ := Nat.exists_eq_add_of_le hge
      have hrest := ih l (by omega) (c := c + m)
      rw [cycle_add, List.count_append, List.count_append, count_cycle_round hi,
        count_cycle_round hj]
      omega
