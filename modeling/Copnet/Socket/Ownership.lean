import Copnet.Socket.Handle

/-!
# Who owns a descriptor

The objects of a family all carry the same descriptor and point to the same counter, and nothing
else of them matters to the others: a step adds such a pair to the pairs of the living objects,
takes one away, or leaves them as they are. `HandleEffect` says which, and what becomes of the
counters and the descriptors, so that an argument about families does not look at the constructors.

`Counted` holds in every run: the counter of a family is the number of its members. It is what makes
the last member the one that closes. `SoleOwner` needs a discipline on the founders, that a
descriptor is given to one constructor only, and under it no descriptor is closed under the hands of
a family.
-/

open Transition

namespace Copnet

/-! ## What a step does -/

/-- What a step does to the objects, the counters and the descriptors. -/
inductive HandleEffect (s s' : Sockets) (act : HandleAct) : List HandleEvent → Prop
  /-- The kernel hands out a descriptor. -/
  | handOut (fd : ℤ) (hnone : act.founds? = none) (hfd : fd ∉ s.opened)
      (hkeys : s'.keys = s.keys) (halloc : s'.allocated = s.allocated)
      (hvalue : s'.value = s.value) (hopened : s'.opened = insert fd s.opened) :
      HandleEffect s s' act [.opened fd]
  /-- An object founds a family, on a descriptor that it has been given or has got itself. -/
  | found (fd : ℤ) (p : RefPtr) (pre post : List HandleEvent) (hsome : act.founds? = some (fd, p))
      (hp : p ∉ s.allocated) (hkeys : s'.keys = (fd, p) ::ₘ s.keys)
      (halloc : s'.allocated = insert p s.allocated)
      (hvalue : s'.value = Function.update s.value p 1)
      (hopened : pre = [] ∧ s'.opened = s.opened ∧
          (0 ≤ fd → ∃ ip port, act = .construct fd ip port p) ∨
        pre = [.opened fd] ∧ fd ∉ s.opened ∧ s'.opened = insert fd s.opened)
      (hpost : post = [] ∨ post = [.setNonBlock fd]) :
      HandleEffect s s' act (pre ++ .new p :: post)
  /-- An object joins the family of another one. -/
  | join (fd : ℤ) (p : RefPtr) (hnone : act.founds? = none) (hmem : (fd, p) ∈ s.keys)
      (hkeys : s'.keys = (fd, p) ::ₘ s.keys) (halloc : s'.allocated = s.allocated)
      (hvalue : s'.value = Function.update s.value p (s.value p + 1))
      (hopened : s'.opened = s.opened) :
      HandleEffect s s' act [.touch p (p ∈ s.allocated)]
  /-- An object leaves its family, which still has members or has a negative descriptor. -/
  | leave (fd : ℤ) (p : RefPtr) (hnone : act.founds? = none)
      (hkeys : (fd, p) ::ₘ s'.keys = s.keys) (halloc : s'.allocated = s.allocated)
      (hvalue : s'.value = Function.update s.value p (s.value p - 1))
      (hopened : s'.opened = s.opened) (hstay : s.value p ≠ 1 ∨ fd < 0) :
      HandleEffect s s' act [.touch p (p ∈ s.allocated)]
  /-- The last object leaves its family. -/
  | last (fd : ℤ) (p : RefPtr) (hnone : act.founds? = none)
      (hkeys : (fd, p) ::ₘ s'.keys = s.keys) (halloc : s'.allocated = s.allocated.erase p)
      (hvalue : s'.value = Function.update s.value p (s.value p - 1))
      (hopened : s'.opened = s.opened.erase fd) (hone : s.value p = 1) (hfd : 0 ≤ fd) :
      HandleEffect s s' act
        [.touch p (p ∈ s.allocated), .close fd (fd ∈ s.opened), .delete p (p ∈ s.allocated)]

/-- How many of the pairs point to the counter `p`. -/
def members (ks : Multiset (ℤ × RefPtr)) (p : RefPtr) : ℕ := ks.countP (·.2 = p)

section Members

variable {ks : Multiset (ℤ × RefPtr)} {fd : ℤ} {p q : RefPtr}

theorem members_cons_self : members ((fd, p) ::ₘ ks) p = members ks p + 1 :=
  Multiset.countP_cons_of_pos (p := fun k : ℤ × RefPtr ↦ k.2 = p) _ rfl

theorem members_cons_of_ne (h : q ≠ p) : members ((fd, p) ::ₘ ks) q = members ks q :=
  Multiset.countP_cons_of_neg (p := fun k : ℤ × RefPtr ↦ k.2 = q) _ h.symm

theorem members_eq_zero : members ks p = 0 ↔ ∀ k ∈ ks, k.2 ≠ p :=
  Multiset.countP_eq_zero

theorem forall_pairs_cons {R : ℤ × RefPtr → ℤ × RefPtr → Prop} {k₀ : ℤ × RefPtr} (hself : R k₀ k₀)
    (hnew : ∀ k ∈ ks, R k₀ k ∧ R k k₀) (hold : ∀ k ∈ ks, ∀ k' ∈ ks, R k k') :
    ∀ k ∈ k₀ ::ₘ ks, ∀ k' ∈ k₀ ::ₘ ks, R k k' := by
  intro k hk k' hk'
  rw [Multiset.mem_cons] at hk hk'
  rcases hk with rfl | hk
  · rcases hk' with rfl | hk'
    · exact hself
    · exact (hnew k' hk').1
  · rcases hk' with rfl | hk'
    · exact (hnew k hk).2
    · exact hold k hk k' hk'

end Members

section Effect

variable {s s' : Sockets} {act : HandleAct} {es : List HandleEvent}

theorem Sockets.mem_of_find {s : Sockets} {id : ObjId} {h : ObjId × Socket}
    (hfind : s.find id = some h) : h ∈ s.live :=
  List.mem_of_find?_eq_some hfind

theorem Sockets.keys_erase {h : ObjId × Socket} (hmem : h ∈ s.live) :
    (h.2.sockfd, h.2.pRef) ::ₘ (↑((s.live.erase h).map fun h ↦ (h.2.sockfd, h.2.pRef)) :
      Multiset (ℤ × RefPtr)) = s.keys := by
  have hperm := (List.perm_cons_erase hmem).map fun h ↦ (h.2.sockfd, h.2.pRef)
  exact (Multiset.coe_eq_coe.mpr hperm).symm

theorem Sockets.mem_keys {h : ObjId × Socket} (hmem : h ∈ s.live) :
    (h.2.sockfd, h.2.pRef) ∈ s.keys :=
  List.mem_map.mpr ⟨h, hmem, rfl⟩

theorem Sockets.exists_mem_keys {P : ℤ × RefPtr → Prop} :
    (∃ k ∈ s.keys, P k) ↔ ∃ h ∈ s.live, P (h.2.sockfd, h.2.pRef) := by
  constructor
  · rintro ⟨k, hmem, hk⟩
    obtain ⟨h, hlive, rfl⟩ := List.mem_map.mp hmem
    exact ⟨h, hlive, hk⟩
  · rintro ⟨h, hlive, hk⟩
    exact ⟨_, Sockets.mem_keys hlive, hk⟩

theorem Sockets.exists_of_mem_keys {k : ℤ × RefPtr} (hmem : k ∈ s.keys) :
    ∃ h ∈ s.live, (h.2.sockfd, h.2.pRef) = k :=
  List.mem_map.mp hmem

theorem Sockets.holders_eq (p : RefPtr) : s.holders p = members s.keys p := by
  rw [Sockets.holders, members, Sockets.keys, Multiset.coe_countP, List.countP_map]
  rfl

theorem Sockets.mem_families {p : RefPtr} : p ∈ s.families ↔ ∃ k ∈ s.keys, k.2 = p := by
  rw [Sockets.families, List.mem_toFinset, List.mem_map, Sockets.exists_mem_keys]

theorem HandleEffect.of_create {sockfd : ℤ} {p : RefPtr} (hp : p ∉ s.allocated)
    (hfd : 0 ≤ sockfd → sockfd ∉ s.opened) (h : s.create sockfd p = (s', es)) :
    HandleEffect s s' (.create sockfd p) es := by
  rw [Sockets.create] at h
  split at h
  · next hneg =>
    obtain ⟨rfl, rfl⟩ := h
    exact .found sockfd p [] [] rfl hp rfl rfl rfl (.inl ⟨rfl, rfl, fun hnonneg ↦ by omega⟩)
      (.inl rfl)
  · next hnonneg =>
    obtain ⟨rfl, rfl⟩ := h
    exact .found sockfd p [.opened sockfd] [] rfl hp rfl rfl rfl
      (.inr ⟨rfl, hfd (by omega), rfl⟩) (.inl rfl)

theorem HandleEffect.of_destroy {x : ObjId × Socket} (hact : act.founds? = none)
    (hmem : x ∈ s.live) (h : s.destroy x.1 x.2 = (s', es)) : HandleEffect s s' act es := by
  have hvalue : Function.update s.value x.2.pRef (s.value x.2.pRef + -1) =
      Function.update s.value x.2.pRef (s.value x.2.pRef - 1) := rfl
  -- the counter is tested after it has gone down
  have htest : Function.update s.value x.2.pRef (s.value x.2.pRef + -1) x.2.pRef = 0 ↔
      s.value x.2.pRef = 1 := by
    rw [Function.update_self]
    omega
  rw [Sockets.destroy] at h
  split at h
  · next hlast =>
    obtain ⟨rfl, rfl⟩ := h
    exact .last x.2.sockfd x.2.pRef hact (Sockets.keys_erase hmem) rfl hvalue rfl
      (htest.mp hlast.1) hlast.2
  · next hstay =>
    obtain ⟨rfl, rfl⟩ := h
    refine .leave x.2.sockfd x.2.pRef hact (Sockets.keys_erase hmem) rfl hvalue rfl ?_
    by_contra hcon
    rw [not_or, not_not, not_lt] at hcon
    exact hstay ⟨htest.mpr hcon.1, hcon.2⟩

theorem HandleEffect.of_step (h : s.step act = some (s', es)) : HandleEffect s s' act es := by
  cases act with
  | handOut fd =>
    rw [Sockets.step, Option.ite_none_right_eq_some, Option.some_inj] at h
    obtain ⟨hfd, hpair⟩ := h
    obtain ⟨rfl, rfl⟩ := hpair
    exact .handOut fd rfl hfd.2 rfl rfl rfl rfl
  | construct sockfd ip port p =>
    rw [Sockets.step, Option.ite_none_right_eq_some, Option.some_inj] at h
    obtain ⟨hp, hpair⟩ := h
    obtain ⟨rfl, rfl⟩ := hpair
    refine .found sockfd p [] _ rfl hp rfl rfl rfl (.inl ⟨rfl, rfl, fun _ ↦ ⟨ip, port, rfl⟩⟩) ?_
    split
    · exact .inr rfl
    · exact .inl rfl
  | create sockfd p =>
    rw [Sockets.step, Option.ite_none_right_eq_some, Option.some_inj] at h
    obtain ⟨hp, hpair⟩ := h
    exact .of_create hp.1 hp.2 hpair
  | copy id =>
    obtain ⟨x, hfind, hx⟩ := Option.map_eq_some_iff.mp h
    obtain ⟨rfl, rfl⟩ := hx
    have hmem := Sockets.mem_of_find hfind
    exact .join x.2.sockfd x.2.pRef rfl (Sockets.mem_keys hmem) rfl rfl rfl rfl
  | move id =>
    obtain ⟨x, hfind, hx⟩ := Option.map_eq_some_iff.mp h
    obtain ⟨rfl, rfl⟩ := hx
    have hmem := Sockets.mem_of_find hfind
    refine .join x.2.sockfd x.2.pRef rfl (Sockets.mem_keys hmem) ?_ rfl rfl rfl
    rw [← Sockets.keys_erase hmem]
    rfl
  | destroy id =>
    obtain ⟨x, hfind, hx⟩ := Option.map_eq_some_iff.mp h
    exact .of_destroy rfl (Sockets.mem_of_find hfind) hx

theorem HandleEffect.mem_of_mem (he : HandleEffect s s' act es) (hfounds : act.founds? = none)
    {k : ℤ × RefPtr} (hk : k ∈ s'.keys) : k ∈ s.keys := by
  cases he with
  | handOut fd hnone hfd hkeys halloc hvalue hopened => exact hkeys ▸ hk
  | found fd p pre post hsome hp hkeys halloc hvalue hopened hpost =>
    rw [hsome] at hfounds
    exact absurd hfounds (by simp)
  | join fd p hnone hmem hkeys halloc hvalue hopened =>
    rw [hkeys, Multiset.mem_cons] at hk
    rcases hk with rfl | hk
    · exact hmem
    · exact hk
  | leave fd p hnone hkeys halloc hvalue hopened hstay => exact hkeys ▸ Multiset.mem_cons_of_mem hk
  | last fd p hnone hkeys halloc hvalue hopened hone hfd =>
    exact hkeys ▸ Multiset.mem_cons_of_mem hk

theorem HandleEffect.keys_of_founds (he : HandleEffect s s' act es) {fd : ℤ} {p : RefPtr}
    (hfounds : act.founds? = some (fd, p)) :
    p ∉ s.allocated ∧ s'.keys = (fd, p) ::ₘ s.keys ∧ s'.allocated = insert p s.allocated := by
  cases he with
  | found fd' p' pre post hsome hp hkeys halloc hvalue hopened hpost =>
    rw [hsome, Option.some_inj, Prod.mk.injEq] at hfounds
    obtain ⟨rfl, rfl⟩ := hfounds
    exact ⟨hp, hkeys, halloc⟩
  | handOut fd hnone | join fd p hnone | leave fd p hnone | last fd p hnone =>
    rw [hnone] at hfounds
    exact absurd hfounds (by simp)

theorem Sockets.mem_descriptors {fd : ℤ} : fd ∈ s.descriptors ↔ ∃ k ∈ s.keys, k.1 = fd := by
  rw [Sockets.descriptors, List.mem_toFinset, List.mem_map, Sockets.exists_mem_keys]

theorem Sockets.mem_descriptors_cons {fd fd' : ℤ} {p : RefPtr}
    (hkeys : s'.keys = (fd, p) ::ₘ s.keys) :
    fd' ∈ s'.descriptors ↔ fd' = fd ∨ fd' ∈ s.descriptors := by
  simp only [Sockets.mem_descriptors, hkeys, Multiset.mem_cons, exists_eq_or_imp]
  rw [eq_comm]

theorem Sockets.mem_families_cons {fd : ℤ} {p q : RefPtr} (hkeys : s'.keys = (fd, p) ::ₘ s.keys) :
    q ∈ s'.families ↔ q = p ∨ q ∈ s.families := by
  simp only [Sockets.mem_families, hkeys, Multiset.mem_cons, exists_eq_or_imp]
  rw [eq_comm]

end Effect

/-! ## Counters -/

/-- The counter of a family is the number of its members, and all of them carry one descriptor. -/
structure Counted (s : Sockets) : Prop where
  /-- A living object points to an allocated counter. -/
  alloc : ∀ k ∈ s.keys, k.2 ∈ s.allocated
  /-- A counter counts the objects that point to it. -/
  value : ∀ p ∈ s.allocated, s.value p = members s.keys p
  /-- The members of a family carry the same descriptor. -/
  same : ∀ k ∈ s.keys, ∀ k' ∈ s.keys, k.2 = k'.2 → k.1 = k'.1

section Counters

variable {s s' : Sockets} {act : HandleAct} {es : List HandleEvent} {fd : ℤ} {p q : RefPtr}

theorem counted_start (opened : Finset ℤ) : Counted (.start opened) where
  alloc _ hk := absurd hk (Multiset.notMem_zero _)
  value _ hp := absurd hp (Finset.notMem_empty _)
  same _ hk := absurd hk (Multiset.notMem_zero _)

theorem Counted.ne_of_last (h : Counted s) (hkeys : (fd, p) ::ₘ s'.keys = s.keys)
    (hone : s.value p = 1) {k : ℤ × RefPtr} (hk : k ∈ s'.keys) : k.2 ≠ p := by
  have hmem : (fd, p) ∈ s.keys := hkeys ▸ Multiset.mem_cons_self _ _
  have hcount := h.value p (h.alloc _ hmem)
  rw [hone, ← hkeys, members_cons_self] at hcount
  have hzero : members s'.keys p = 0 := by omega
  exact members_eq_zero.mp hzero k hk

/-- A family that an object leaves still has a member, unless that object was the last. -/
theorem Counted.exists_of_leave (h : Counted s) (hkeys : (fd, p) ::ₘ s'.keys = s.keys)
    (hone : s.value p ≠ 1) : ∃ k ∈ s'.keys, k = (fd, p) := by
  have hmem : (fd, p) ∈ s.keys := hkeys ▸ Multiset.mem_cons_self _ _
  have hcount := h.value p (h.alloc _ hmem)
  rw [← hkeys, members_cons_self] at hcount
  have hpos : members s'.keys p ≠ 0 := by omega
  rw [ne_eq, members_eq_zero] at hpos
  push Not at hpos
  obtain ⟨k, hk, hkp⟩ := hpos
  have hkfd : k.1 = fd := h.same k (hkeys ▸ Multiset.mem_cons_of_mem hk) _ hmem hkp
  exact ⟨k, hk, Prod.ext hkfd hkp⟩

theorem Counted.alloc_step (h : Counted s) (he : HandleEffect s s' act es) {k : ℤ × RefPtr}
    (hk : k ∈ s'.keys) : k.2 ∈ s'.allocated := by
  have hmem := he.mem_of_mem
  cases he with
  | found fd p pre post hsome hp hkeys halloc hvalue hopened hpost =>
    rw [hkeys, Multiset.mem_cons] at hk
    rw [halloc, Finset.mem_insert]
    rcases hk with rfl | hk
    · exact .inl rfl
    · exact .inr (h.alloc k hk)
  | handOut fd hnone hfd hkeys halloc => exact halloc ▸ h.alloc k (hmem hnone hk)
  | join fd p hnone hold hkeys halloc => exact halloc ▸ h.alloc k (hmem hnone hk)
  | leave fd p hnone hkeys halloc => exact halloc ▸ h.alloc k (hmem hnone hk)
  | last fd p hnone hkeys halloc hvalue hopened hone hfd =>
    rw [halloc, Finset.mem_erase]
    exact ⟨h.ne_of_last hkeys hone hk, h.alloc k (hmem hnone hk)⟩

/-- A counter goes up and down with the members of its family. -/
theorem Counted.value_step (h : Counted s) (he : HandleEffect s s' act es)
    (hq : q ∈ s'.allocated) : s'.value q = members s'.keys q := by
  cases he with
  | handOut fd hnone hfd hkeys halloc hvalue hopened =>
    rw [hkeys, hvalue]
    exact h.value q (halloc ▸ hq)
  | found fd p pre post hsome hp hkeys halloc hvalue hopened hpost =>
    rw [halloc, Finset.mem_insert] at hq
    by_cases hqp : q = p
    · -- a new counter is nobody else's
      have hne : ∀ k ∈ s.keys, k.2 ≠ p := fun k hk heq ↦ hp (heq ▸ h.alloc k hk)
      rw [hvalue, hkeys, hqp, Function.update_self, members_cons_self, members_eq_zero.mpr hne]
      rfl
    · rw [hvalue, hkeys, Function.update_of_ne hqp, members_cons_of_ne hqp]
      exact h.value q (hq.resolve_left hqp)
  | join fd p hnone hmem hkeys halloc hvalue hopened =>
    have hcount := h.value q (halloc ▸ hq)
    by_cases hqp : q = p
    · subst hqp
      rw [hvalue, hkeys, Function.update_self, members_cons_self, hcount]
      push_cast
      rfl
    · rw [hvalue, hkeys, Function.update_of_ne hqp, members_cons_of_ne hqp, hcount]
  | leave fd p hnone hkeys halloc hvalue hopened hstay =>
    have hcount := h.value q (halloc ▸ hq)
    by_cases hqp : q = p
    · subst hqp
      rw [← hkeys, members_cons_self] at hcount
      rw [hvalue, Function.update_self, hcount]
      push_cast
      omega
    · rw [← hkeys, members_cons_of_ne hqp] at hcount
      rw [hvalue, Function.update_of_ne hqp, hcount]
  | last fd p hnone hkeys halloc hvalue hopened hone hfd =>
    rw [halloc, Finset.mem_erase] at hq
    have hcount := h.value q hq.2
    rw [← hkeys, members_cons_of_ne hq.1] at hcount
    rw [hvalue, Function.update_of_ne hq.1, hcount]

theorem Counted.step (h : Counted s) (he : HandleEffect s s' act es) : Counted s' := by
  refine ⟨fun _ hk ↦ h.alloc_step he hk, fun _ hq ↦ h.value_step he hq, ?_⟩
  cases hfounds : act.founds? with
  | none =>
    intro k hk k' hk'
    exact h.same k (he.mem_of_mem hfounds hk) k' (he.mem_of_mem hfounds hk')
  | some k₀ =>
    obtain ⟨hp, hkeys, -⟩ := he.keys_of_founds hfounds
    have hne : ∀ k ∈ s.keys, k.2 ≠ k₀.2 := fun k hk heq ↦ hp (heq ▸ h.alloc k hk)
    rw [hkeys]
    refine forall_pairs_cons (R := fun k k' ↦ k.2 = k'.2 → k.1 = k'.1) (fun _ ↦ rfl) ?_ h.same
    intro k hk
    exact ⟨fun heq ↦ absurd heq.symm (hne k hk), fun heq ↦ absurd heq (hne k hk)⟩

theorem Counted.valid (h : Counted s) (he : HandleEffect s s' act es)
    (hclose : ∀ k ∈ s.keys, 0 ≤ k.1 → k.1 ∈ s.opened) : ∀ ev ∈ es, ev.Valid := by
  cases he with
  | handOut fd hnone hfd hkeys halloc hvalue hopened => simp [HandleEvent.Valid]
  | found fd p pre post hsome hp hkeys halloc hvalue hopened hpost =>
    intro ev hev
    rw [List.mem_append, List.mem_cons] at hev
    rcases hev with hev | rfl | hev
    · rcases hopened with ⟨rfl, -⟩ | ⟨rfl, -⟩
      · exact absurd hev List.not_mem_nil
      · rw [List.mem_singleton.mp hev]
        trivial
    · trivial
    · rcases hpost with rfl | rfl
      · exact absurd hev List.not_mem_nil
      · rw [List.mem_singleton.mp hev]
        trivial
  | join fd p hnone hmem hkeys halloc hvalue hopened =>
    simp [HandleEvent.Valid, h.alloc _ hmem]
  | leave fd p hnone hkeys halloc hvalue hopened hstay =>
    have hmem : (fd, p) ∈ s.keys := hkeys ▸ Multiset.mem_cons_self _ _
    simp [HandleEvent.Valid, h.alloc _ hmem]
  | last fd p hnone hkeys halloc hvalue hopened hone hfd =>
    have hmem : (fd, p) ∈ s.keys := hkeys ▸ Multiset.mem_cons_self _ _
    simp [HandleEvent.Valid, h.alloc _ hmem, hclose _ hmem hfd]

end Counters

/-! ## Descriptors -/

/-- A descriptor is given to one constructor only: it is open, and no living object carries it. -/
def GivenOnce (s : Sockets) : HandleAct → Prop
  | .construct sockfd _ _ _ => 0 ≤ sockfd → sockfd ∈ s.opened ∧ ∀ x ∈ s.live, x.2.sockfd ≠ sockfd
  | _ => True

instance (s : Sockets) : (act : HandleAct) → Decidable (GivenOnce s act)
  | .construct sockfd _ _ _ => inferInstanceAs
      (Decidable (0 ≤ sockfd → sockfd ∈ s.opened ∧ ∀ x ∈ s.live, x.2.sockfd ≠ sockfd))
  | .handOut _ | .create _ _ | .copy _ | .move _ | .destroy _ => isTrue trivial

/-- Every descriptor of a living object is open and belongs to one family. -/
structure SoleOwner (s : Sockets) : Prop where
  /-- A living object's descriptor is open. -/
  opened : ∀ k ∈ s.keys, 0 ≤ k.1 → k.1 ∈ s.opened
  /-- Two families do not share a descriptor. -/
  alone : ∀ k ∈ s.keys, ∀ k' ∈ s.keys, 0 ≤ k.1 → k.1 = k'.1 → k.2 = k'.2

/-- How many families have been founded on the descriptor `fd`. -/
def founders (tr : List (HandleAct × List HandleEvent)) (fd : ℤ) : ℕ :=
  tr.countP fun st ↦ st.1.founds?.map Prod.fst = some fd

section Descriptors

variable {s s' : Sockets} {act : HandleAct} {es : List HandleEvent} {fd : ℤ} {p q : RefPtr}

theorem owned_start (opened : Finset ℤ) : SoleOwner (.start opened) where
  opened _ hk := absurd hk (Multiset.notMem_zero _)
  alone _ hk := absurd hk (Multiset.notMem_zero _)

/-- The descriptor that a family is founded on is open from then on, and was nobody's. -/
theorem SoleOwner.ne_of_found (h : SoleOwner s) (hgiven : GivenOnce s act)
    (hopened : es = [] ∧ s'.opened = s.opened ∧
        (0 ≤ fd → ∃ ip port, act = .construct fd ip port p) ∨
      es = [.opened fd] ∧ fd ∉ s.opened ∧ s'.opened = insert fd s.opened) (hfd : 0 ≤ fd) :
    fd ∈ s'.opened ∧ ∀ k ∈ s.keys, k.1 ≠ fd := by
  rcases hopened with ⟨-, hsame, hact⟩ | ⟨-, hnew, hinsert⟩
  · obtain ⟨ip, port, rfl⟩ := hact hfd
    obtain ⟨hmem, halone⟩ := hgiven hfd
    refine ⟨hsame ▸ hmem, ?_⟩
    intro k hk
    obtain ⟨x, hx, rfl⟩ := Sockets.exists_of_mem_keys hk
    exact halone x hx
  · refine ⟨hinsert ▸ Finset.mem_insert_self _ _, ?_⟩
    intro k hk heq
    exact hnew (heq ▸ h.opened k hk (heq ▸ hfd))

theorem SoleOwner.ne_of_last (h : SoleOwner s) (hc : Counted s)
    (hkeys : (fd, p) ::ₘ s'.keys = s.keys) (hone : s.value p = 1) (hfd : 0 ≤ fd)
    {k : ℤ × RefPtr} (hk : k ∈ s'.keys) : k.1 ≠ fd := by
  intro heq
  have hmem : (fd, p) ∈ s.keys := hkeys ▸ Multiset.mem_cons_self _ _
  have hold : k ∈ s.keys := hkeys ▸ Multiset.mem_cons_of_mem hk
  exact hc.ne_of_last hkeys hone hk (h.alone _ hmem k hold hfd heq.symm).symm

theorem SoleOwner.opened_step (h : SoleOwner s) (hc : Counted s) (hgiven : GivenOnce s act)
    (he : HandleEffect s s' act es) {k : ℤ × RefPtr} (hk : k ∈ s'.keys) (hnonneg : 0 ≤ k.1) :
    k.1 ∈ s'.opened := by
  have hmem := he.mem_of_mem
  cases he with
  | handOut fd hnone hfd hkeys halloc hvalue hopened =>
    rw [hopened, Finset.mem_insert]
    exact .inr (h.opened k (hmem hnone hk) hnonneg)
  | found fd p pre post hsome hp hkeys halloc hvalue hopened hpost =>
    have hsub : s.opened ⊆ s'.opened := by
      rcases hopened with ⟨-, hsame, -⟩ | ⟨-, -, hinsert⟩
      · rw [hsame]
      · rw [hinsert]
        exact Finset.subset_insert _ _
    rw [hkeys, Multiset.mem_cons] at hk
    rcases hk with rfl | hk
    · exact (h.ne_of_found hgiven hopened hnonneg).1
    · exact hsub (h.opened k hk hnonneg)
  | join fd p hnone hold hkeys halloc hvalue hopened =>
    exact hopened ▸ h.opened k (hmem hnone hk) hnonneg
  | leave fd p hnone hkeys halloc hvalue hopened hstay =>
    exact hopened ▸ h.opened k (hmem hnone hk) hnonneg
  | last fd p hnone hkeys halloc hvalue hopened hone hfd =>
    rw [hopened, Finset.mem_erase]
    exact ⟨h.ne_of_last hc hkeys hone hfd hk, h.opened k (hmem hnone hk) hnonneg⟩

theorem SoleOwner.step (h : SoleOwner s) (hc : Counted s) (hgiven : GivenOnce s act)
    (he : HandleEffect s s' act es) : SoleOwner s' := by
  refine ⟨fun _ hk hnonneg ↦ h.opened_step hc hgiven he hk hnonneg, ?_⟩
  have hmem := he.mem_of_mem
  cases he with
  | found fd p pre post hsome hp hkeys halloc hvalue hopened hpost =>
    rw [hkeys]
    refine forall_pairs_cons (R := fun k k' ↦ 0 ≤ k.1 → k.1 = k'.1 → k.2 = k'.2)
      (fun _ _ ↦ rfl) ?_ h.alone
    intro k hk
    have hne (hfd : 0 ≤ fd) : k.1 ≠ fd := (h.ne_of_found hgiven hopened hfd).2 k hk
    constructor
    · exact fun hfd heq ↦ absurd heq.symm (hne hfd)
    · exact fun hfd heq ↦ absurd heq (hne (hfd.trans_eq heq))
  | handOut fd hnone | join fd p hnone | leave fd p hnone | last fd p hnone =>
    intro k hk k' hk'
    exact h.alone k (hmem hnone hk) k' (hmem hnone hk')

theorem founders_snoc (tr : List (HandleAct × List HandleEvent)) (fd : ℤ) :
    founders (tr ++ [(act, es)]) fd =
      founders tr fd + if act.founds?.map Prod.fst = some fd then 1 else 0 := by
  rw [founders, List.countP_append, List.countP_singleton, ← founders]
  simp only [decide_eq_true_eq]

/-- **One close for each founding.** A step closes a descriptor exactly if it ends the family that
was founded on it. -/
theorem SoleOwner.count_close (h : SoleOwner s) (hc : Counted s) (hgiven : GivenOnce s act)
    (he : HandleEffect s s' act es) (hfd : 0 ≤ fd) :
    es.count (.close fd true) + (if fd ∈ s'.descriptors then 1 else 0) =
      (if fd ∈ s.descriptors then 1 else 0) +
        if act.founds?.map Prod.fst = some fd then 1 else 0 := by
  cases he with
  | handOut fd' hnone hfd' hkeys halloc hvalue hopened =>
    have hsame : fd ∈ s'.descriptors ↔ fd ∈ s.descriptors := by
      rw [Sockets.mem_descriptors, Sockets.mem_descriptors, hkeys]
    simp [hsame, hnone]
  | found fd' p pre post hsome hp hkeys halloc hvalue hopened hpost =>
    -- founding a family closes nothing
    have hnone : (pre ++ .new p :: post).count (.close fd true) = 0 := by
      rw [List.count_eq_zero]
      rcases hopened with ⟨rfl, -⟩ | ⟨rfl, -⟩ <;> rcases hpost with rfl | rfl <;> simp
    rw [hnone, hsome]
    simp only [Sockets.mem_descriptors_cons hkeys, Option.map_some, Option.some.injEq]
    by_cases heq : fd' = fd
    · subst heq
      have hold : fd' ∉ s.descriptors := by
        rw [Sockets.mem_descriptors]
        rintro ⟨k, hk, hkfd⟩
        exact (h.ne_of_found hgiven hopened hfd).2 k hk hkfd
      simp [hold]
    · simp [heq, Ne.symm heq]
  | join fd' p hnone hmem hkeys halloc hvalue hopened =>
    have hsame : fd ∈ s'.descriptors ↔ fd ∈ s.descriptors := by
      rw [Sockets.mem_descriptors_cons hkeys, or_iff_right_iff_imp]
      rintro rfl
      exact Sockets.mem_descriptors.mpr ⟨_, hmem, rfl⟩
    simp [hsame, hnone]
  | leave fd' p hnone hkeys halloc hvalue hopened hstay =>
    have hsame : fd ∈ s'.descriptors ↔ fd ∈ s.descriptors := by
      rw [Sockets.mem_descriptors_cons hkeys.symm, eq_comm, iff_or_self]
      rintro rfl
      have hone : s.value p ≠ 1 := hstay.resolve_right (by omega)
      obtain ⟨k, hk, rfl⟩ := hc.exists_of_leave hkeys hone
      exact Sockets.mem_descriptors.mpr ⟨_, hk, rfl⟩
    simp [hsame, hnone]
  | last fd' p hnone hkeys halloc hvalue hopened hone hfd' =>
    have hmem : (fd', p) ∈ s.keys := hkeys ▸ Multiset.mem_cons_self _ _
    have hvalid : decide (fd' ∈ s.opened) = true := decide_eq_true (h.opened _ hmem hfd')
    rw [hvalid, hnone]
    simp only [Sockets.mem_descriptors_cons hkeys.symm]
    by_cases heq : fd = fd'
    · subst heq
      have hgone : fd ∉ s'.descriptors := by
        rw [Sockets.mem_descriptors]
        rintro ⟨k, hk, hkfd⟩
        exact h.ne_of_last hc hkeys hone hfd hk hkfd
      simp [hgone]
    · simp [heq, Ne.symm heq]

end Descriptors

/-! ## Whole runs -/

/-- What holds of a run in which descriptors are given to one constructor only. -/
structure ClosedOnce (tr : List (HandleAct × List HandleEvent)) (s : Sockets) : Prop where
  /-- Counters count. -/
  counted : Counted s
  /-- Descriptors are open and belong to one family. -/
  owned : SoleOwner s
  /-- A descriptor has been closed as often as families on it have come to an end. -/
  closes : ∀ fd, 0 ≤ fd →
    (events tr).count (.close fd true) + (if fd ∈ s.descriptors then 1 else 0) = founders tr fd
  /-- Nothing was closed or touched that was not there. -/
  valid : ∀ ev ∈ events tr, ev.Valid

section Runs

variable {s s₀ s' : Sockets} {act : HandleAct} {es : List HandleEvent}
  {tr : List (HandleAct × List HandleEvent)}

theorem closedOnce_init (h₀ : Sockets.machine.init s₀) : ClosedOnce [] s₀ := by
  obtain ⟨opened, rfl⟩ := h₀
  refine ⟨counted_start opened, owned_start opened, ?_, ?_⟩
  · intro fd hfd
    rfl
  · intro ev hev
    exact absurd hev List.not_mem_nil

theorem ClosedOnce.step (h : ClosedOnce tr s) (hgiven : GivenOnce s act)
    (hs : s.step act = some (s', es)) : ClosedOnce (tr ++ [(act, es)]) s' := by
  have he := HandleEffect.of_step hs
  refine ⟨h.counted.step he, h.owned.step h.counted hgiven he, ?_, ?_⟩
  · intro fd hfd
    have hold := h.closes fd hfd
    have hnew := h.owned.count_close h.counted hgiven he hfd
    rw [events_append, events_singleton, List.count_append, founders_snoc]
    omega
  · intro ev hev
    rw [events_append, events_singleton, List.mem_append] at hev
    rcases hev with hev | hev
    · exact h.valid ev hev
    · exact h.counted.valid he h.owned.opened ev hev

theorem closedOnce_run (h₀ : Sockets.machine.init s₀) (h : Run Sockets.machine GivenOnce s₀ tr s) :
    ClosedOnce tr s :=
  h.history (closedOnce_init h₀) fun _ hP hgiven hs ↦ hP.step hgiven hs

/-- The destructor closes the descriptor and frees the counter if its object is the last of its
family, and only counts down otherwise. -/
theorem ClosedOnce.destroy (h : ClosedOnce tr s) {id : ObjId} {x : ObjId × Socket}
    (hfind : s.find id = some x) (hfd : 0 ≤ x.2.sockfd)
    (hs : s.step (.destroy id) = some (s', es)) :
    if s.holders x.2.pRef = 1 then
      es = [.touch x.2.pRef true, .close x.2.sockfd true, .delete x.2.pRef true] ∧
        x.2.sockfd ∉ s'.opened ∧ x.2.pRef ∉ s'.allocated
    else
      es = [.touch x.2.pRef true] ∧ x.2.sockfd ∈ s'.opened ∧ x.2.pRef ∈ s'.allocated := by
  have hmem := Sockets.mem_keys (Sockets.mem_of_find hfind)
  have halloc : x.2.pRef ∈ s.allocated := h.counted.alloc _ hmem
  have hopened : x.2.sockfd ∈ s.opened := h.owned.opened _ hmem hfd
  have hvalue : s.value x.2.pRef = s.holders x.2.pRef := by
    rw [Sockets.holders_eq]
    exact h.counted.value _ halloc
  have hzero : Function.update s.value x.2.pRef (s.value x.2.pRef + -1) x.2.pRef = 0 ↔
      s.holders x.2.pRef = 1 := by
    rw [Function.update_self, hvalue]
    omega
  rw [Sockets.step, hfind, Option.map_some, Sockets.destroy] at hs
  split at hs
  · next hlast =>
    obtain ⟨rfl, rfl⟩ := hs
    rw [if_pos (hzero.mp hlast.1), decide_eq_true halloc, decide_eq_true hopened]
    exact ⟨rfl, Finset.notMem_erase _ _, Finset.notMem_erase _ _⟩
  · next hstay =>
    obtain ⟨rfl, rfl⟩ := hs
    rw [if_neg fun hone ↦ hstay ⟨hzero.mpr hone, hfd⟩, decide_eq_true halloc]
    exact ⟨rfl, hopened, halloc⟩

/-- **A descriptor is closed exactly once, by its last object.** In every run in which descriptors
are given to one constructor only: the counter of a living object is allocated and counts the
objects of its family, and its descriptor is open; the destructor of the last one, and no other,
closes the descriptor and frees the counter; a descriptor has been closed as often as families have
been founded on it, but for the one that still lives; and no counter is touched and no descriptor
closed that is not there. -/
theorem descriptor_closed_once (h₀ : Sockets.machine.init s₀)
    (h : Run Sockets.machine GivenOnce s₀ tr s) :
    (∀ x ∈ s.live, 0 ≤ x.2.sockfd → x.2.sockfd ∈ s.opened ∧ x.2.pRef ∈ s.allocated ∧
      s.value x.2.pRef = s.holders x.2.pRef) ∧
    (∀ id x s' es, s.find id = some x → 0 ≤ x.2.sockfd → s.step (.destroy id) = some (s', es) →
      if s.holders x.2.pRef = 1 then
        es = [.touch x.2.pRef true, .close x.2.sockfd true, .delete x.2.pRef true] ∧
          x.2.sockfd ∉ s'.opened ∧ x.2.pRef ∉ s'.allocated
      else
        es = [.touch x.2.pRef true] ∧ x.2.sockfd ∈ s'.opened ∧ x.2.pRef ∈ s'.allocated) ∧
    (∀ fd, 0 ≤ fd →
      (events tr).count (.close fd true) + (if fd ∈ s.descriptors then 1 else 0) =
        founders tr fd) ∧
    ∀ ev ∈ events tr, ev.Valid := by
  have hrun : ClosedOnce tr s := closedOnce_run h₀ h
  refine ⟨?_, ?_, hrun.closes, hrun.valid⟩
  · intro x hx hfd
    have hmem := Sockets.mem_keys hx
    have halloc := hrun.counted.alloc _ hmem
    refine ⟨hrun.owned.opened _ hmem hfd, halloc, ?_⟩
    rw [Sockets.holders_eq]
    exact hrun.counted.value _ halloc
  · intro id x s' es hfind hfd hs
    exact hrun.destroy hfind hfd hs

/-- A descriptor is accepted, its object copied and moved, and all of them destroyed, the moved-from
one among them. -/
def acceptedAndDropped : List HandleAct :=
  [.handOut 5, .construct 5 "10.0.0.1" 8099 64, .copy 0, .move 0, .destroy 0, .destroy 2,
    .destroy 1]

theorem descriptor_closed_once_accepted :
    ∃ tr s, Run Sockets.machine GivenOnce (Sockets.start ∅) tr s ∧ s.live = [] ∧
      (events tr).count (.close 5 true) = 1 := by
  have h := run_after (M := Sockets.machine) (C := GivenOnce) (s := Sockets.start ∅)
    acceptedAndDropped
  have hcount := (descriptor_closed_once ⟨∅, rfl⟩ h).2.2.1 5 (by decide)
  rw [if_neg (by decide)] at hcount
  refine ⟨_, _, h, by decide, hcount.trans ?_⟩
  decide

end Runs

end Copnet
