import Mathlib.Data.List.Basic

/-!
# Reading a stream in chunks

A program that loops on `read(fd, buf, count)` sees its input cut into
chunks it does not choose: each call may return any count up to the one asked
for and what is left, returns `0` only at the end, and may fail with a
negative count. `ReadOk input count n` is that contract for one call.

The lemmas are what a pass of such a loop needs: a positive count takes a
chunk of exactly that length (`ReadOk.length_take`), a zero count means the
input is used up (`ReadOk.eq_nil`), and some count is always allowed
(`ReadOk.progress`), so that the loop can always take a step.
-/

namespace Xv6.Lib

variable {α : Type}

/-- `read(fd, buf, count)` may return `n` on the unread `input`. -/
structure ReadOk (input : List α) (count : Nat) (n : Int) : Prop where
  le_count : n ≤ count
  le_input : n ≤ input.length
  pos : input ≠ [] → n ≠ 0

namespace ReadOk

variable {input : List α} {count : Nat} {n : Int}

theorem length_take (h : ReadOk input count n) (hn : 0 < n) :
    (input.take n.toNat).length = n.toNat := by
  rw [List.length_take]
  exact Nat.min_eq_left (by have := h.le_input; omega)

theorem eq_nil (h : ReadOk input count n) (hn : n = 0) : input = [] := by
  by_contra hne
  exact h.pos hne hn

/-- A call can always return something: one byte, or `0` at the end. -/
theorem progress (input : List α) {count : Nat} (hc : 0 < count) :
    ReadOk input count (if input = [] then 0 else 1) := by
  refine ⟨by split <;> omega, ?_, fun hne => by simp [hne]⟩
  split
  · exact Int.natCast_nonneg _
  · have := List.length_pos_iff.mpr ‹_›
    omega

end ReadOk

end Xv6.Lib
