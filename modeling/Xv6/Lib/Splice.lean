import Mathlib.Data.List.TakeDrop

/-!
# Overwriting a stretch of a list

`splice c o a` is `c` with the elements from offset `o` on replaced by `a`,
and grown where `a` runs past the end of `c`: what a write of the bytes `a` at
offset `o` does to the bytes of a file. A loop that writes a long stretch in
pieces, each where the last one ended, writes the stretch once
(`splice_splice`).
-/

namespace Xv6.Lib

variable {α : Type}

/-- `c` with the `a.length` elements from `o` replaced by `a`. -/
def splice (c : List α) (o : Nat) (a : List α) : List α :=
  c.take o ++ a ++ c.drop (o + a.length)

theorem length_splice (c : List α) {o : Nat} (h : o ≤ c.length) (a : List α) :
    (splice c o a).length = max c.length (o + a.length) := by
  simp only [splice, List.length_append, List.length_take, List.length_drop]
  omega

/-- Writing nothing changes nothing. -/
theorem splice_nil (c : List α) (o : Nat) : splice c o [] = c := by
  simp [splice]

/-- A write of `b` where the write of `a` ended: one write of `a ++ b`. -/
theorem splice_splice (c : List α) {o : Nat} (h : o ≤ c.length) (a b : List α) :
    splice (splice c o a) (o + a.length) b = splice c o (a ++ b) := by
  have hfront : (c.take o ++ a).length = o + a.length := by
    rw [List.length_append, List.length_take, Nat.min_eq_left h]
  -- the first write's front is kept whole, and the second write cuts its back
  have hcut : ∀ (X Y : List α) (k : Nat), X.length = k →
      (X ++ Y).take k ++ b ++ (X ++ Y).drop (k + b.length) = X ++ b ++ Y.drop b.length := by
    intro X Y k hk
    subst hk
    simp [List.drop_append]
  unfold splice
  rw [hcut _ _ _ hfront, List.drop_drop, List.length_append]
  simp only [List.append_assoc, Nat.add_assoc]

end Xv6.Lib
