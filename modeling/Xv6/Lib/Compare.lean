import Mathlib.Data.List.Lex

/-!
# Three-way comparisons of lists

C compares two byte strings by scanning them from the front and returning the
difference of the first bytes where they differ, or `0`. `Compares r s t`
says what such a result means: `r` is zero, negative or positive as `s` is
equal to `t`, before it or after it in the lexicographic order.

A scan proves it one position at a time: equal heads leave the comparison to
the tails (`Compares.cons`), different heads decide it (`Compares.head`), and
a list that has ended comes before one that has not (`Compares.nil_cons`,
`Compares.cons_nil`). The elements are compared through a map `f` into `Int`
that reflects their order, as C compares bytes as `unsigned char`.
-/

namespace Xv6.Lib

variable {α : Type} [LT α]

/-- `r` compares `s` with `t` as a three-way comparison does. -/
structure Compares (r : Int) (s t : List α) : Prop where
  eq_iff : r = 0 ↔ s = t
  neg_iff : r < 0 ↔ s < t
  pos_iff : 0 < r ↔ t < s

theorem Compares.nil : Compares (α := α) 0 [] [] :=
  ⟨iff_of_true rfl rfl, iff_of_false (by omega) (List.not_lt_nil _),
    iff_of_false (by omega) (List.not_lt_nil _)⟩

/-- A list that has ended comes first. -/
theorem Compares.nil_cons {r : Int} (hr : r < 0) (y : α) (t : List α) : Compares r [] (y :: t) :=
  ⟨iff_of_false (by omega) (List.cons_ne_nil y t).symm, iff_of_true hr (List.nil_lt_cons y t),
    iff_of_false (by omega) (List.not_lt_nil _)⟩

theorem Compares.cons_nil {r : Int} (hr : 0 < r) (x : α) (s : List α) : Compares r (x :: s) [] :=
  ⟨iff_of_false (by omega) (List.cons_ne_nil x s), iff_of_false (by omega) (List.not_lt_nil _),
    iff_of_true hr (List.nil_lt_cons x s)⟩

section Embed

variable {f : α → Int} (hf : ∀ x y, x < y ↔ f x < f y)

include hf in
/-- Equal heads leave the comparison to the tails. -/
theorem Compares.cons {r : Int} {s t : List α} (h : Compares r s t) (x : α) :
    Compares r (x :: s) (x :: t) := by
  have hirr : ¬x < x := fun hx => by have := (hf x x).mp hx; omega
  refine ⟨?_, ?_, ?_⟩
  · rw [h.eq_iff, List.cons.injEq]
    exact (and_iff_right rfl).symm
  · rw [h.neg_iff, List.cons_lt_cons_iff]
    exact ⟨fun hst => .inr ⟨rfl, hst⟩, fun hc => hc.resolve_left hirr |>.2⟩
  · rw [h.pos_iff, List.cons_lt_cons_iff]
    exact ⟨fun hts => .inr ⟨rfl, hts⟩, fun hc => hc.resolve_left hirr |>.2⟩

include hf in
/-- The first heads that differ decide the comparison. -/
theorem Compares.head (hinj : Function.Injective f) {x y : α} (hxy : x ≠ y) (s t : List α) :
    Compares (f x - f y) (x :: s) (y :: t) := by
  have hne : f x ≠ f y := fun e => hxy (hinj e)
  refine ⟨?_, ?_, ?_⟩
  · exact iff_of_false (by omega) fun e => hxy (List.cons.inj e).1
  · rw [List.cons_lt_cons_iff, hf, show f x - f y < 0 ↔ f x < f y by omega]
    exact ⟨.inl, fun hc => hc.elim id fun e => absurd e.1 hxy⟩
  · rw [List.cons_lt_cons_iff, hf, show 0 < f x - f y ↔ f y < f x by omega]
    exact ⟨.inl, fun hc => hc.elim id fun e => absurd e.1.symm hxy⟩

end Embed

end Xv6.Lib
