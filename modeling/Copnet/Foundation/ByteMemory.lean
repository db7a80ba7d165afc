import Mathlib.Algebra.GroupWithZero.Nat
import Mathlib.Data.List.Nodup
import Mathlib.Data.List.Perm.Subperm
import Mathlib.Logic.Function.Basic

/-!
# Words in byte memory, and lists threaded through it

Memory is a function from addresses to bytes. Words are stored in it with the least significant byte
first, at any address, aligned or not, so two words may overlap in part; what is stored at one place
is kept at another only if the two are `Apart`.

`Threaded` is the null-terminated list whose nodes hold their own links: each node is the address of
a word, and that word is the address of the next one. It is stated with the list of its nodes, so a
memory in which it holds has no cycle there. `Threaded.push` and `Threaded.pop` are the two edits,
`Threaded.congr` says that nothing else of memory matters.
-/

namespace ByteMemory

/-- A memory of bytes. -/
abbrev Mem := ℕ → UInt8

/-- The `n` bytes at `a` and the `k` bytes at `b` do not overlap. -/
def Apart (a n b k : ℕ) : Prop := a + n ≤ b ∨ b + k ≤ a

instance (a n b k : ℕ) : Decidable (Apart a n b k) := inferInstanceAs (Decidable (_ ∨ _))

/-- The word of `w` bytes at `a`. -/
def load (m : Mem) : ℕ → ℕ → ℕ
  | _, 0 => 0
  | a, w + 1 => (m a).toNat + 256 * load m (a + 1) w

/-- The memory with the word `v` of `w` bytes at `a`. -/
def store (m : Mem) : ℕ → ℕ → ℕ → Mem
  | _, _, 0 => m
  | a, v, w + 1 => Function.update (store m (a + 1) (v / 256) w) a (UInt8.ofNat v)

variable {m m' : Mem} {a b n k v w x head : ℕ} {l : List ℕ}

theorem apart_comm : Apart a n b k ↔ Apart b k a n := or_comm

/-- Regions that do not overlap have room in the memory that they are in. -/
theorem sum_sizes_le {rs : List (ℕ × ℕ)} {N : ℕ}
    (h : rs.Pairwise fun r r' ↦ Apart r.1 r.2 r'.1 r'.2) (hN : ∀ r ∈ rs, r.1 + r.2 ≤ N) :
    (rs.map Prod.snd).sum ≤ N := by
  have hnodup : (rs.flatMap fun r ↦ List.range' r.1 r.2).Nodup := by
    rw [List.nodup_flatMap]
    refine ⟨fun r _ ↦ List.nodup_range', h.imp fun hapart x hx hx' ↦ ?_⟩
    rw [List.mem_range'_1] at hx hx'
    unfold Apart at hapart
    omega
  have hsubset : (rs.flatMap fun r ↦ List.range' r.1 r.2) ⊆ List.range N := by
    intro x hx
    obtain ⟨r, hr, hxr⟩ := List.mem_flatMap.mp hx
    rw [List.mem_range'_1] at hxr
    have := hN r hr
    rw [List.mem_range]
    omega
  have hlen := (hnodup.subperm hsubset).length_le
  rw [List.length_range, List.length_flatMap] at hlen
  simpa only [List.length_range'] using hlen

theorem store_of_notMem (h : x < a ∨ a + w ≤ x) : store m a v w x = m x := by
  induction w generalizing a v with
  | zero => rfl
  | succ w ih =>
    have hne : x ≠ a := by omega
    rw [store, Function.update_of_ne hne]
    apply ih
    omega

theorem load_congr (h : ∀ x, a ≤ x → x < a + w → m x = m' x) : load m a w = load m' a w := by
  induction w generalizing a with
  | zero => rfl
  | succ w ih =>
    have htail : load m (a + 1) w = load m' (a + 1) w := by
      apply ih
      intro x hle hlt
      apply h <;> omega
    rw [load, load, htail, h a (Nat.le_refl a) (by omega)]

theorem load_update {c : UInt8} (h : x < a ∨ a + w ≤ x) :
    load (Function.update m x c) a w = load m a w := by
  apply load_congr
  intro y hle hlt
  have hne : y ≠ x := by omega
  exact Function.update_of_ne hne _ _

theorem load_store (hv : v < 256 ^ w) : load (store m a v w) a w = v := by
  induction w generalizing a v with
  | zero =>
    rw [Nat.pow_zero, Nat.lt_one_iff] at hv
    rw [hv]
    rfl
  | succ w ih =>
    have hdiv : v / 256 < 256 ^ w := by
      rw [Nat.div_lt_iff_lt_mul (by decide)]
      exact hv
    have htail : load (store m a v (w + 1)) (a + 1) w =
        load (store m (a + 1) (v / 256) w) (a + 1) w := by
      apply load_congr
      intro x hle _
      have hne : x ≠ a := by omega
      rw [store, Function.update_of_ne hne]
    have hhead : store m a v (w + 1) a = UInt8.ofNat v := Function.update_self ..
    rw [load, htail, ih hdiv, hhead, UInt8.toNat_ofNat']
    omega

theorem load_store_of_apart (h : Apart a w b w) : load (store m a v w) b w = load m b w := by
  apply load_congr
  intro x hle hlt
  apply store_of_notMem
  unfold Apart at h
  omega

-- from here on a word is what the lemmas above say, and is not computed when terms are compared
attribute [irreducible] load store

/-- The null-terminated list with the nodes `l`, whose links are words of `w` bytes. -/
def Threaded (w : ℕ) (m : Mem) : ℕ → List ℕ → Prop
  | head, [] => head = 0
  | head, a :: l => head = a ∧ a ≠ 0 ∧ Threaded w m (load m a w) l

theorem threaded_nil : Threaded w m 0 [] := rfl

theorem Threaded.congr (h : Threaded w m head l) (hl : ∀ a ∈ l, load m' a w = load m a w) :
    Threaded w m' head l := by
  induction l generalizing head with
  | nil => exact h
  | cons a l ih =>
    obtain ⟨heq, hne, hrest⟩ := h
    refine ⟨heq, hne, ?_⟩
    rw [hl a List.mem_cons_self]
    exact ih hrest fun b hb ↦ hl b (List.mem_cons_of_mem a hb)

theorem Threaded.eq_nil (h : Threaded w m 0 l) : l = [] := by
  cases l with
  | nil => rfl
  | cons a l => exact absurd h.1.symm h.2.1

theorem Threaded.head_mem (h : Threaded w m head l) (hne : head ≠ 0) : head ∈ l := by
  cases l with
  | nil => exact absurd h hne
  | cons a l =>
    rw [h.1]
    exact List.mem_cons_self

theorem Threaded.head_ne (h : Threaded w m head l) (hl : l ≠ []) : head ≠ 0 := by
  cases l with
  | nil => exact absurd rfl hl
  | cons a l =>
    rw [h.1]
    exact h.2.1

theorem Threaded.push (h : Threaded w m head l) (ha : a ≠ 0) (hhead : head < 256 ^ w)
    (hl : ∀ b ∈ l, Apart a w b w) : Threaded w (store m a head w) a (a :: l) := by
  refine ⟨rfl, ha, ?_⟩
  rw [load_store hhead]
  exact h.congr fun b hb ↦ load_store_of_apart (hl b hb)

theorem Threaded.pop (h : Threaded w m head l) (hne : head ≠ 0) :
    ∃ l', l = head :: l' ∧ Threaded w m (load m head w) l' := by
  cases l with
  | nil => exact absurd h hne
  | cons a l =>
    obtain ⟨rfl, -, hrest⟩ := h
    exact ⟨l, rfl, hrest⟩

end ByteMemory
