import Mathlib.Data.Fintype.Card
import Mathlib.Logic.Function.Basic
import Mathlib.Algebra.BigOperators.Group.Finset.Piecewise
import Mathlib.Algebra.Order.BigOperators.Group.Finset

/-!
# Counting the agents in a given state

Kernel counters (`log.outstanding`, reference counts) are meant to equal the
number of agents in some state. `count f a` is that number for a state map
`f : ι → α` over finitely many agents, and the lemmas below say how it moves
when one agent's state is updated, the step every counter invariant takes.
-/

namespace Xv6.Lib

variable {ι α : Type} [Fintype ι] [DecidableEq α]

/-- The number of agents `i` with `f i = a`. -/
def count (f : ι → α) (a : α) : Nat := (Finset.univ.filter fun i => f i = a).card

theorem count_eq_zero_iff {f : ι → α} {a : α} : count f a = 0 ↔ ∀ i, f i ≠ a := by
  simp [count, Finset.filter_eq_empty_iff]

/-- Some agent is in state `a`: the count is positive. -/
theorem count_pos {f : ι → α} {i : ι} {a : α} (h : f i = a) : 0 < count f a := by
  unfold count
  exact Finset.card_pos.mpr ⟨i, by simp [h]⟩

/-- At most one agent in state `a` means two agents in it are one. -/
theorem eq_of_count_le_one {f : ι → α} {i j : ι} {a : α} (hc : count f a ≤ 1)
    (hi : f i = a) (hj : f j = a) : i = j := by
  unfold count at hc
  exact Finset.card_le_one.mp hc i (by simp [hi]) j (by simp [hj])

/-- An agent out of state `a` is one the count leaves out. -/
theorem count_lt_card {f : ι → α} {i : ι} {a : α} (h : f i ≠ a) : count f a < Fintype.card ι := by
  rw [count, ← Finset.card_univ]
  exact Finset.card_lt_card (Finset.filter_ssubset.mpr ⟨i, Finset.mem_univ i, h⟩)

section Update

variable [DecidableEq ι]

/-- An agent entering state `a` adds one. -/
theorem count_update_enter {f : ι → α} {i : ι} {a : α} (h : f i ≠ a) :
    count (Function.update f i a) a = count f a + 1 := by
  have hset : (Finset.univ.filter fun j => Function.update f i a j = a) =
      insert i (Finset.univ.filter fun j => f j = a) := by
    ext j
    by_cases hj : j = i
    · subst hj
      simp
    · simp [hj]
  rw [count, hset, Finset.card_insert_of_notMem (by simp [h])]
  rfl

/-- An agent leaving state `a` removes one. -/
theorem count_update_leave {f : ι → α} {i : ι} {a b : α} (h : f i = a) (hb : b ≠ a) :
    count (Function.update f i b) a + 1 = count f a := by
  have hset : (Finset.univ.filter fun j => f j = a) =
      insert i (Finset.univ.filter fun j => Function.update f i b j = a) := by
    ext j
    by_cases hj : j = i
    · subst hj
      simp [h]
    · simp [hj]
  rw [count, count, hset, Finset.card_insert_of_notMem (by simp [hb])]

/-- An update that keeps the agent out of state `a`, or in it, changes nothing. -/
theorem count_update_same {f : ι → α} {i : ι} {a b : α} (h : f i = a ↔ b = a) :
    count (Function.update f i b) a = count f a := by
  unfold count
  congr 1
  ext j
  by_cases hj : j = i
  · subst hj
    simp [h]
  · simp [Function.update_of_ne hj]

end Update

/-! ## Sums over the agents

A counter that stands for how many agents own something is the sum of what
each agent owns; an update of one agent moves the sum by its own change. -/

section Sum

/-- Two agents' values fit in the sum. -/
theorem add_le_sum [DecidableEq ι] (f : ι → Nat) {i j : ι} (h : i ≠ j) : f i + f j ≤ ∑ k, f k := by
  rw [← Finset.sum_pair h]
  exact Finset.sum_le_sum_of_subset (Finset.subset_univ _)

theorem le_sum (f : ι → Nat) (i : ι) : f i ≤ ∑ k, f k :=
  Finset.single_le_sum (fun _ _ => Nat.zero_le _) (Finset.mem_univ i)

/-- Updating agent `i` to `b` moves the sum from `f i` to `b`. -/
theorem sum_update_add [DecidableEq ι] (f : ι → Nat) (i : ι) (b : Nat) :
    (∑ k, Function.update f i b k) + f i = (∑ k, f k) + b := by
  rw [Finset.sum_update_of_mem (Finset.mem_univ i),
    Finset.sum_eq_add_sum_sdiff_singleton_of_mem (Finset.mem_univ i) f]
  omega

end Sum

/-! ## Resources owned through a bitmap

Resources are numbers with `0` standing for none; agent `i` holds resource
`f i`. A bitmap `u` is in step with `f` over the resources in `[lo, hi)`
when every held resource lies in that range, none is held twice, and a bit is
set iff its resource is held. An allocator keeps this by two moves: `enter`,
an agent holding nothing takes a resource whose bit is clear and sets the
bit; `leave`, an agent gives its resource up and clears the bit. -/

/-- The bitmap `u` records exactly the resources of `[lo, hi)` that `f` holds. -/
structure Owned (f : ι → Nat) (u : Nat → Bool) (lo hi : Nat) : Prop where
  lo_pos : 0 < lo
  inside : ∀ i, f i ≠ 0 → lo ≤ f i ∧ f i < hi
  once : ∀ b, b ≠ 0 → count f b ≤ 1
  bits : ∀ b, lo ≤ b → b < hi → (u b = true ↔ count f b = 1)

namespace Owned

variable {f : ι → Nat} {u : Nat → Bool} {lo hi : Nat}

theorem count_eq_one (h : Owned f u lo hi) {i : ι} (hi0 : f i ≠ 0) : count f (f i) = 1 :=
  le_antisymm (h.once _ hi0) (count_pos rfl)

/-- A held resource has its bit set. -/
theorem used_of_held (h : Owned f u lo hi) {i : ι} (hi0 : f i ≠ 0) : u (f i) = true := by
  obtain ⟨hlo, hhi⟩ := h.inside i hi0
  exact (h.bits _ hlo hhi).mpr (h.count_eq_one hi0)

/-- A resource of the range whose bit is clear is held by no one. -/
theorem count_eq_zero (h : Owned f u lo hi) {b : Nat} (hlo : lo ≤ b) (hhi : b < hi)
    (hu : u b = false) : count f b = 0 := by
  have hle := h.once b (by have := h.lo_pos; omega)
  have hne : count f b ≠ 1 := fun h1 => by simp [(h.bits b hlo hhi).mpr h1] at hu
  omega

/-- No two agents hold one resource. -/
theorem eq_of_held (h : Owned f u lo hi) {i j : ι} (hi0 : f i ≠ 0) (hij : f i = f j) : i = j :=
  eq_of_count_le_one (h.once _ hi0) rfl hij.symm

/-- Only the bits of the range matter. -/
theorem congr_bits (h : Owned f u lo hi) {u' : Nat → Bool}
    (hu : ∀ b, lo ≤ b → b < hi → u' b = u b) : Owned f u' lo hi where
  lo_pos := h.lo_pos
  inside := h.inside
  once := h.once
  bits b hlo hhi := by
    rw [hu b hlo hhi]
    exact h.bits b hlo hhi

/-- The range can grow over resources whose bits are clear, since no one holds them. -/
theorem widen (h : Owned f u lo hi) {hi' : Nat} (hle : hi ≤ hi')
    (hu : ∀ b, hi ≤ b → b < hi' → u b = false) : Owned f u lo hi' where
  lo_pos := h.lo_pos
  inside i hi0 := ⟨(h.inside i hi0).1, by have := (h.inside i hi0).2; omega⟩
  once := h.once
  bits b hlo hhi := by
    by_cases hb : b < hi
    · exact h.bits b hlo hb
    · have hfree : count f b = 0 := count_eq_zero_iff.mpr fun i hib => by
        have := (h.inside i (by have := h.lo_pos; omega)).2
        omega
      rw [hu b (by omega) hhi, hfree]
      simp

variable [DecidableEq ι]

/-- An agent holding nothing takes a free resource of the range. -/
theorem enter (h : Owned f u lo hi) {i : ι} {x : Nat} (hfi : f i = 0) (hlo : lo ≤ x)
    (hhi : x < hi) (hu : u x = false) :
    Owned (Function.update f i x) (Function.update u x true) lo hi := by
  have hx0 : x ≠ 0 := by have := h.lo_pos; omega
  have hfree : count f x = 0 := h.count_eq_zero hlo hhi hu
  -- every resource other than `x` keeps its count
  have hsame : ∀ b, b ≠ 0 → b ≠ x → count (Function.update f i x) b = count f b := by
    intro b hb0 hbx
    apply count_update_same
    constructor
    · intro hb
      exact absurd (hfi ▸ hb).symm hb0
    · intro hb
      exact absurd hb.symm hbx
  have hx : count (Function.update f i x) x = 1 := by
    rw [count_update_enter (by rw [hfi]; exact hx0.symm), hfree]
  refine ⟨h.lo_pos, ?_, ?_, ?_⟩
  · intro j hj
    by_cases hji : j = i
    · subst hji
      simp only [Function.update_self]
      exact ⟨hlo, hhi⟩
    · rw [Function.update_of_ne hji] at hj ⊢
      exact h.inside j hj
  · intro b hb0
    by_cases hbx : b = x
    · subst hbx
      rw [hx]
    · rw [hsame b hb0 hbx]
      exact h.once b hb0
  · intro b hblo hbhi
    by_cases hbx : b = x
    · subst hbx
      simp [hx]
    · rw [Function.update_of_ne hbx, hsame b (by have := h.lo_pos; omega) hbx]
      exact h.bits b hblo hbhi

/-- An agent gives its resource up. -/
theorem leave (h : Owned f u lo hi) {i : ι} (hi0 : f i ≠ 0) :
    Owned (Function.update f i 0) (Function.update u (f i) false) lo hi := by
  have hx : count (Function.update f i 0) (f i) = 0 := by
    have := count_update_leave (f := f) (i := i) rfl (Ne.symm hi0)
    rw [h.count_eq_one hi0] at this
    omega
  have hsame : ∀ b, b ≠ 0 → b ≠ f i → count (Function.update f i 0) b = count f b := by
    intro b hb0 hbx
    apply count_update_same
    constructor
    · intro hb
      exact absurd hb.symm hbx
    · intro hb
      exact absurd hb.symm hb0
  refine ⟨h.lo_pos, ?_, ?_, ?_⟩
  · intro j hj
    by_cases hji : j = i
    · subst hji
      simp at hj
    · rw [Function.update_of_ne hji] at hj ⊢
      exact h.inside j hj
  · intro b hb0
    by_cases hbx : b = f i
    · rw [hbx, hx]
      omega
    · rw [hsame b hb0 hbx]
      exact h.once b hb0
  · intro b hblo hbhi
    by_cases hbx : b = f i
    · rw [hbx, hx]
      simp
    · rw [Function.update_of_ne hbx, hsame b (by have := h.lo_pos; omega) hbx]
      exact h.bits b hblo hbhi

/-- A bump allocator: the resources below `hi` are exactly the held ones,
and an agent holding nothing takes `hi` itself. -/
theorem push (h : Owned f (fun b => decide (b < hi)) lo hi) (hlo : lo ≤ hi) {i : ι}
    (hfi : f i = 0) : Owned (Function.update f i hi) (fun b => decide (b < hi + 1)) lo (hi + 1) := by
  have hwide := h.widen (Nat.le_succ hi) fun b hb _ => by simp; omega
  refine (hwide.enter hfi hlo (Nat.lt_succ_self hi) (by simp)).congr_bits fun b _ _ => ?_
  by_cases hb : b = hi
  · subst hb
    simp
  · rw [Function.update_of_ne hb]
    simp only [decide_eq_decide]
    omega

/-- Dropping an agent that holds nothing changes nothing. -/
theorem update_zero (h : Owned f u lo hi) {i : ι} (hfi : f i = 0) :
    Owned (Function.update f i 0) u lo hi := by
  rwa [← hfi, Function.update_eq_self]

end Owned

end Xv6.Lib
