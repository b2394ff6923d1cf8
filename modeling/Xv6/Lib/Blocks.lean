import Mathlib.Data.List.Sort
import Mathlib.Data.Finset.Card

/-!
# Blocks of a heap

An allocator hands out blocks `[a, a + sz a)` of an address range `[lo, hi)`:
a block is named by its start `a`, and `sz` gives its length. `Layout sz lo hi
B` says that the blocks starting at the elements of `B` are nonempty, lie in
the range and do not overlap.

What an allocator does to its blocks is one of a few changes of a layout,
each a lemma here: the blocks are listed otherwise, or one moves from one list
to another (`Layout.of_mem_iff`); the blocks that start in one interval are
replaced by the block that covers it (`Layout.coalesce`); a block is cut in
two (`Layout.split`); the range grows by a block at its top
(`Layout.extend`). Each takes the new list and the new lengths as the caller
has them, described by membership and by where the lengths changed.
-/

namespace Xv6.Lib

/-- The blocks at `a` and `b` do not overlap. -/
def Apart (sz : Nat → Nat) (a b : Nat) : Prop := a + sz a ≤ b ∨ b + sz b ≤ a

theorem Apart.symm {sz : Nat → Nat} {a b : Nat} (h : Apart sz a b) : Apart sz b a := Or.symm h

/-- The blocks starting at the elements of `B` are nonempty, lie in `[lo, hi)`
and do not overlap. -/
structure Layout (sz : Nat → Nat) (lo hi : Nat) (B : List Nat) : Prop where
  nodup : B.Nodup
  lo_le : ∀ a ∈ B, lo ≤ a
  le_hi : ∀ a ∈ B, a + sz a ≤ hi
  pos : ∀ a ∈ B, 0 < sz a
  apart : ∀ a ∈ B, ∀ b ∈ B, a ≠ b → Apart sz a b

namespace Layout

variable {sz sz' : Nat → Nat} {lo hi : Nat} {B B' : List Nat}

/-- A block ends before any block that starts after it. -/
theorem add_le_of_lt (h : Layout sz lo hi B) {a b : Nat} (ha : a ∈ B) (hb : b ∈ B)
    (hab : a < b) : a + sz a ≤ b := by
  rcases h.apart a ha b hb (Nat.ne_of_lt hab) with h1 | h1
  · exact h1
  · have := h.pos b hb
    omega

/-- No block starts inside another. -/
theorem not_mem_of_lt (h : Layout sz lo hi B) {a x : Nat} (ha : a ∈ B) (hax : a < x)
    (hx : x < a + sz a) : x ∉ B := fun hxB => by
  have := h.add_le_of_lt ha hxB hax
  omega

/-- A range holds at most as many blocks as it has addresses. -/
theorem length_le (h : Layout sz lo hi B) : B.length ≤ hi := by
  classical
  have hsub : B.toFinset ⊆ Finset.range hi := by
    intro a ha
    have ha' := List.mem_toFinset.mp ha
    have := h.le_hi a ha'
    have := h.pos a ha'
    exact Finset.mem_range.mpr (by omega)
  calc B.length = B.toFinset.card := (List.toFinset_card_of_nodup h.nodup).symm
    _ ≤ (Finset.range hi).card := Finset.card_le_card hsub
    _ = hi := Finset.card_range hi

/-- Only which blocks there are matters, and their lengths. -/
theorem of_mem_iff (h : Layout sz lo hi B) (hnd : B'.Nodup) (hmem : ∀ x, x ∈ B' ↔ x ∈ B)
    (hsz : ∀ x ∈ B, sz' x = sz x) : Layout sz' lo hi B' where
  nodup := hnd
  lo_le a ha := h.lo_le a ((hmem a).mp ha)
  le_hi a ha := by
    rw [hsz a ((hmem a).mp ha)]
    exact h.le_hi a ((hmem a).mp ha)
  pos a ha := by
    rw [hsz a ((hmem a).mp ha)]
    exact h.pos a ((hmem a).mp ha)
  apart a ha b hb hab := by
    have ha' := (hmem a).mp ha
    have hb' := (hmem b).mp hb
    unfold Apart
    rw [hsz a ha', hsz b hb']
    exact h.apart a ha' b hb' hab

/-- The blocks that start in `[m, e)`, among them `m` and one that reaches
`e`, become the one block `[m, e)`. -/
theorem coalesce (h : Layout sz lo hi B) {m e : Nat} (hm : m ∈ B)
    (he : ∃ x ∈ B, m ≤ x ∧ x + sz x = e) (hnd : B'.Nodup)
    (hmem : ∀ x, x ∈ B' ↔ x = m ∨ (x ∈ B ∧ (x < m ∨ e ≤ x)))
    (hsz : ∀ x ∈ B', x ≠ m → sz' x = sz x) (hszm : sz' m = e - m) : Layout sz' lo hi B' := by
  obtain ⟨z, hz, hmz, rfl⟩ := he
  have hzpos := h.pos z hz
  have hold : ∀ x ∈ B', x ≠ m → x ∈ B ∧ (x < m ∨ z + sz z ≤ x) := fun x hx hxm =>
    ((hmem x).mp hx).resolve_left hxm
  -- the new block is apart from every other: those below it ended before `m`
  have hapart : ∀ x ∈ B', x ≠ m → Apart sz' m x := by
    intro x hx hxm
    obtain ⟨hxB, hlt | hle⟩ := hold x hx hxm
    · have := h.add_le_of_lt hxB hm hlt
      exact .inr (by rw [hsz x hx hxm]; exact this)
    · exact .inl (by rw [hszm]; omega)
  refine ⟨hnd, fun x hx => ?_, fun x hx => ?_, fun x hx => ?_, fun x hx y hy hxy => ?_⟩
  · by_cases hxm : x = m
    · exact hxm ▸ h.lo_le m hm
    · exact h.lo_le x (hold x hx hxm).1
  · by_cases hxm : x = m
    · subst hxm
      have := h.le_hi z hz
      rw [hszm]
      omega
    · rw [hsz x hx hxm]
      exact h.le_hi x (hold x hx hxm).1
  · by_cases hxm : x = m
    · subst hxm
      rw [hszm]
      omega
    · rw [hsz x hx hxm]
      exact h.pos x (hold x hx hxm).1
  · by_cases hxm : x = m
    · subst hxm
      exact hapart y hy (Ne.symm hxy)
    by_cases hym : y = m
    · subst hym
      exact (hapart x hx hxm).symm
    have hx' := (hold x hx hxm).1
    have hy' := (hold y hy hym).1
    unfold Apart
    rw [hsz x hx hxm, hsz y hy hym]
    exact h.apart x hx' y hy' hxy

/-- The block `p` is cut at `p + k`: `p` keeps `[p, p + k)` and the rest is
the block `p + k`. -/
theorem split (h : Layout sz lo hi B) {p k : Nat} (hp : p ∈ B) (hk : 0 < k) (hks : k < sz p)
    (hnd : B'.Nodup) (hmem : ∀ x, x ∈ B' ↔ x = p + k ∨ x ∈ B)
    (hsz : ∀ x ∈ B, x ≠ p → sz' x = sz x) (hszp : sz' p = k) (hszq : sz' (p + k) = sz p - k) :
    Layout sz' lo hi B' := by
  have hszx : ∀ x ∈ B, x ≠ p → sz' x = sz x ∧ (x + sz x ≤ p ∨ p + sz p ≤ x) := fun x hx hxp =>
    ⟨hsz x hx hxp, (h.apart x hx p hp hxp)⟩
  -- every block keeps its place, and the two halves of `p` stay within it
  have hin : ∀ x ∈ B', (x ∈ B ∧ x ≠ p) ∨ x = p ∨ x = p + k := by
    intro x hx
    rcases (hmem x).mp hx with rfl | hxB
    · exact .inr (.inr rfl)
    · by_cases hxp : x = p
      · exact .inr (.inl hxp)
      · exact .inl ⟨hxB, hxp⟩
  refine ⟨hnd, fun x hx => ?_, fun x hx => ?_, fun x hx => ?_, fun x hx y hy hxy => ?_⟩
  · rcases hin x hx with ⟨hxB, -⟩ | rfl | rfl
    · exact h.lo_le x hxB
    · exact h.lo_le x hp
    · have := h.lo_le p hp
      omega
  · rcases hin x hx with ⟨hxB, hxp⟩ | rfl | rfl
    · rw [hsz x hxB hxp]
      exact h.le_hi x hxB
    · have := h.le_hi x hp
      omega
    · have := h.le_hi p hp
      omega
  · rcases hin x hx with ⟨hxB, hxp⟩ | rfl | rfl
    · rw [hsz x hxB hxp]
      exact h.pos x hxB
    · omega
    · omega
  · unfold Apart
    rcases hin x hx with ⟨hxB, hxp⟩ | rfl | rfl <;> rcases hin y hy with ⟨hyB, hyp⟩ | rfl | rfl
    · rw [hsz x hxB hxp, hsz y hyB hyp]
      exact h.apart x hxB y hyB hxy
    · have := hszx x hxB hxp
      omega
    · have := hszx x hxB hxp
      omega
    · have := hszx y hyB hyp
      omega
    · exact absurd rfl hxy
    · omega
    · have := hszx y hyB hyp
      omega
    · omega
    · exact absurd rfl hxy

/-- A block at the top of the range grows the range by its length. -/
theorem extend (h : Layout sz lo hi B) {n : Nat} (hlo : lo ≤ hi) (hn : sz' hi = n) (hpos : 0 < n)
    (hnd : B'.Nodup) (hmem : ∀ x, x ∈ B' ↔ x = hi ∨ x ∈ B) (hsz : ∀ x ∈ B, sz' x = sz x) :
    Layout sz' lo (hi + n) B' := by
  subst hn
  refine ⟨hnd, fun x hx => ?_, fun x hx => ?_, fun x hx => ?_, fun x hx y hy hxy => ?_⟩
  · rcases (hmem x).mp hx with rfl | hxB
    · exact hlo
    · exact h.lo_le x hxB
  · rcases (hmem x).mp hx with rfl | hxB
    · exact le_rfl
    · rw [hsz x hxB]
      have := h.le_hi x hxB
      omega
  · rcases (hmem x).mp hx with rfl | hxB
    · exact hpos
    · rw [hsz x hxB]
      exact h.pos x hxB
  · unfold Apart
    rcases (hmem x).mp hx with rfl | hxB <;> rcases (hmem y).mp hy with rfl | hyB
    · exact absurd rfl hxy
    · rw [hsz y hyB]
      exact .inr (h.le_hi y hyB)
    · rw [hsz x hxB]
      exact .inl (h.le_hi x hxB)
    · rw [hsz x hxB, hsz y hyB]
      exact h.apart x hxB y hyB hxy

end Layout

end Xv6.Lib
