import Mathlib.Data.List.Basic

/-!
# Counting words with one flag

The words of a list, for a test `p` of separators, are its maximal runs of
elements that are not separators: the non-empty pieces of `List.splitOnP p`.
A scan counts them with one flag, "inside a word": a separator clears it, and
an element that is not one starts a word when the flag is clear (`wordStep`).

`foldl_wordStep`: the scan from outside a word counts the words. From inside
one it counts the words after the first piece, which continues the word the
scan is in (`foldl_wordStep_gen`); that is the statement an induction from
the front needs.
-/

namespace Xv6.Lib

variable {α : Type} (p : α → Bool)

/-- The words of `l`: its maximal runs of elements that are not separators. -/
def words (l : List α) : List (List α) := (l.splitOnP p).filter fun w => !w.isEmpty

/-- One element of the scan: the count of words and the flag. -/
def wordStep (st : Nat × Bool) (x : α) : Nat × Bool :=
  if p x then (st.1, false) else if st.2 then st else (st.1 + 1, true)

/-- How many of the pieces `ws` are not empty, that is, are words. -/
def nonEmpty (ws : List (List α)) : Nat := (ws.filter fun w => !w.isEmpty).length

theorem nonEmpty_cons_nil (ws : List (List α)) : nonEmpty ([] :: ws) = nonEmpty ws := by
  simp [nonEmpty]

theorem nonEmpty_cons_cons (x : α) (w : List α) (ws : List (List α)) :
    nonEmpty ((x :: w) :: ws) = nonEmpty ws + 1 := by
  simp [nonEmpty]

/-- The scan from `(n, inword)` adds the words of `l`, less the first piece
when it starts inside a word. -/
theorem foldl_wordStep_gen (l : List α) :
    ∀ (n : Nat) (inword : Bool), (l.foldl (wordStep p) (n, inword)).1 =
      n + nonEmpty (if inword then (l.splitOnP p).tail else l.splitOnP p) := by
  induction l with
  | nil => intro n inword; cases inword <;> simp [nonEmpty]
  | cons x l ih =>
    intro n inword
    rw [List.foldl_cons, List.splitOnP_cons_eq_if_modifyHead]
    -- the pieces of the rest, the first of which `x` joins unless it separates
    obtain ⟨w, ws, hws⟩ := List.exists_cons_of_ne_nil (List.splitOnP_ne_nil p l)
    by_cases hx : p x = true
    · simp only [wordStep, hx, if_true, ih]
      cases inword <;> simp [nonEmpty_cons_nil]
    · simp only [hx, Bool.false_eq_true, if_false, hws, List.modifyHead_cons]
      cases inword with
      | true => simp [wordStep, hx, ih, hws]
      | false =>
        -- `x` starts a word
        have hstep : wordStep p (n, false) x = (n + 1, true) := by simp [wordStep, hx]
        rw [hstep, ih, if_pos rfl, hws, List.tail_cons, if_neg (by decide), nonEmpty_cons_cons]
        omega

/-- The scan from outside a word counts the words. -/
theorem foldl_wordStep (l : List α) (n : Nat) :
    (l.foldl (wordStep p) (n, false)).1 = n + (words p l).length :=
  foldl_wordStep_gen p l n false

end Xv6.Lib
