import Mathlib.Logic.Basic

/-!
# Labelled transition systems and their invariants

A system is a predicate of initial states and a step relation labelled by
events. `TSys.Reachable` collects the states that some run reaches and
`TSys.Invariant` says a predicate holds on all of them. Every safety result
of the development goes through one induction rule, `Invariant.of_inductive`:
a predicate that holds initially and is kept by every step holds in every
reachable state.

`TSys.Run` is a run written out as a list of events; `Run.reachable` connects
it to reachability so that a whole-run statement can be read off an invariant.
-/

namespace Xv6.Lib

/-- A labelled transition system: initial states and a step relation. -/
structure TSys (σ ε : Type) where
  init : σ → Prop
  step : σ → ε → σ → Prop

namespace TSys

variable {σ ε : Type} (M : TSys σ ε)

/-- The states some run of `M` reaches. -/
inductive Reachable : σ → Prop
  | init {s} : M.init s → Reachable s
  | step {s e s'} : Reachable s → M.step s e s' → Reachable s'

/-- `P` holds in every reachable state. -/
def Invariant (P : σ → Prop) : Prop := ∀ s, M.Reachable s → P s

/-- `Run s es s'`: the events `es`, taken in order from `s`, can end in `s'`. -/
inductive Run : σ → List ε → σ → Prop
  | nil (s) : Run s [] s
  | cons {s e s' es s''} : M.step s e s' → Run s' es s'' → Run s (e :: es) s''

variable {M}

/-- The induction rule: established initially, kept by every step. -/
theorem Invariant.of_inductive {P : σ → Prop} (hinit : ∀ s, M.init s → P s)
    (hstep : ∀ s e s', P s → M.step s e s' → P s') : M.Invariant P := by
  intro s hs
  induction hs with
  | init h => exact hinit _ h
  | step _ hst ih => exact hstep _ _ _ ih hst

/-- Invariants are closed under implication. -/
theorem Invariant.mono {P Q : σ → Prop} (hP : M.Invariant P) (h : ∀ s, P s → Q s) :
    M.Invariant Q := fun s hs => h s (hP s hs)

/-- Two invariants hold together. -/
theorem Invariant.and {P Q : σ → Prop} (hP : M.Invariant P) (hQ : M.Invariant Q) :
    M.Invariant (fun s => P s ∧ Q s) := fun s hs => ⟨hP s hs, hQ s hs⟩

/-- A run from a reachable state ends in a reachable state. -/
theorem Run.reachable {s s' : σ} {es : List ε} (hr : M.Run s es s')
    (hs : M.Reachable s) : M.Reachable s' := by
  induction hr with
  | nil => exact hs
  | cons hst _ ih => exact ih (Reachable.step hs hst)

/-- Runs compose along an append of their event lists. -/
theorem Run.append {s s' s'' : σ} {es fs : List ε} (h1 : M.Run s es s')
    (h2 : M.Run s' fs s'') : M.Run s (es ++ fs) s'' := by
  induction h1 with
  | nil => exact h2
  | cons hst _ ih => exact Run.cons hst (ih h2)

/-- A run splits at an append of its event list. -/
theorem Run.split {s s'' : σ} {es fs : List ε} (h : M.Run s (es ++ fs) s'') :
    ∃ s', M.Run s es s' ∧ M.Run s' fs s'' := by
  induction es generalizing s with
  | nil => exact ⟨s, Run.nil s, h⟩
  | cons e es ih =>
    cases h with
    | cons hst hrest =>
      obtain ⟨s', h1, h2⟩ := ih hrest
      exact ⟨s', Run.cons hst h1, h2⟩

end TSys

/-! ## Counted loops

A C loop `for (j = 0; j < n; j++) body;` whose body may fail is the fold
`(List.range n).foldlM body s` in `Except`. Its rule takes an invariant
indexed by the passes done: from it every pass succeeds and re-establishes
it at the next index. When the loop is known to have returned, as in a step
of a system, `foldlM_ok_inv` carries an invariant through the passes it
made, and `bind_eq_ok` takes such a chain apart one step at a time. -/

section Loop

variable {ε β : Type} {P : Nat → β → Prop} {f : β → Nat → Except ε β}

theorem foldlM_range'_inv (a k : Nat)
    (hstep : ∀ j, a ≤ j → j < a + k → ∀ s, P j s → ∃ s', f s j = .ok s' ∧ P (j + 1) s')
    {s : β} (h : P a s) : ∃ s', (List.range' a k).foldlM f s = .ok s' ∧ P (a + k) s' := by
  induction k generalizing a s with
  | zero => exact ⟨s, rfl, h⟩
  | succ k ih =>
    obtain ⟨s₁, h₁, hP₁⟩ := hstep a (Nat.le_refl a) (by omega) s h
    obtain ⟨s', h', hP'⟩ := ih (a + 1) (fun j hj hjk => hstep j (by omega) (by omega)) hP₁
    refine ⟨s', ?_, by rwa [Nat.add_right_comm, Nat.add_assoc] at hP'⟩
    simp only [List.range'_succ, List.foldlM_cons, h₁]
    exact h'

/-- A chain of `Except` steps that returns: its first step returned. -/
theorem bind_eq_ok {α : Type} {x : Except ε α} {g : α → Except ε β} {b : β}
    (h : x >>= g = .ok b) : ∃ a, x = .ok a ∧ g a = .ok b := by
  cases x with
  | error e => cases h
  | ok a => exact ⟨a, rfl, h⟩

/-- A call whose result is mapped, that returns: the call returned. -/
theorem map_eq_ok {α : Type} {x : Except ε α} {g : α → β} {b : β} (h : x.map g = .ok b) :
    ∃ a, x = .ok a ∧ g a = b := by
  cases x with
  | error e => cases h
  | ok a => exact ⟨a, rfl, by injection h⟩

/-- A fold in `Except` that returns: a property of the state, indexed by the
elements passed, holds at the end when each pass that returns keeps it. -/
theorem foldlM_ok_inv {α : Type} {Q : List α → β → Prop} {g : β → α → Except ε β}
    (hstep : ∀ pre a t t', Q pre t → g t a = .ok t' → Q (pre ++ [a]) t') :
    ∀ {l pre : List α} {s s' : β}, Q pre s → l.foldlM g s = .ok s' → Q (pre ++ l) s' := by
  intro l
  induction l with
  | nil =>
    intro pre s s' hs h
    cases h
    rw [List.append_nil]
    exact hs
  | cons a l ih =>
    intro pre s s' hs h
    rw [List.foldlM_cons] at h
    obtain ⟨t, ht, h⟩ := bind_eq_ok h
    have hend := ih (hstep pre a s t hs ht) h
    rwa [List.append_assoc, List.singleton_append] at hend

theorem foldlM_range_inv (n : Nat)
    (hstep : ∀ j < n, ∀ s, P j s → ∃ s', f s j = .ok s' ∧ P (j + 1) s')
    {s : β} (h : P 0 s) : ∃ s', (List.range n).foldlM f s = .ok s' ∧ P n s' := by
  have := foldlM_range'_inv 0 n (fun j _ hj => hstep j (by omega)) h
  rw [Nat.zero_add] at this
  rwa [List.range_eq_range']

end Loop

/-! ## Postconditions of calls that may fail

`Post R Q x`: the call `x` returns a value satisfying `Q`, or fails with an
error satisfying `R`. A chain of calls is proved one call at a time with
`Post.bind`, a loop with `Post.foldlM`, and the two halves are read back with
`Post.of_ok` and `Post.of_error`. -/

section Post

variable {ε α β : Type} {R : ε → Prop}

/-- `x` returns a value satisfying `Q` or fails with an error satisfying `R`. -/
def Post (R : ε → Prop) (Q : α → Prop) : Except ε α → Prop
  | .ok a => Q a
  | .error e => R e

theorem Post.of_ok {Q : α → Prop} {x : Except ε α} {a : α} (h : Post R Q x) (hx : x = .ok a) :
    Q a := by
  subst hx
  exact h

theorem Post.of_error {Q : α → Prop} {x : Except ε α} {e : ε} (h : Post R Q x)
    (hx : x = .error e) : R e := by
  subst hx
  exact h

theorem Post.pure {Q : α → Prop} {a : α} (h : Q a) : Post R Q (pure a) := h

theorem Post.mono {P Q : α → Prop} {x : Except ε α} (h : Post R P x) (hPQ : ∀ a, P a → Q a) :
    Post R Q x := by
  cases x with
  | error e => exact h
  | ok a => exact hPQ a h

/-- Weaker conditions on both outcomes. -/
theorem Post.imp {R' : ε → Prop} {P Q : α → Prop} {x : Except ε α} (h : Post R P x)
    (hR : ∀ e, R e → R' e) (hPQ : ∀ a, P a → Q a) : Post R' Q x := by
  cases x with
  | error e => exact hR e h
  | ok a => exact hPQ a h

theorem Post.bind {P : α → Prop} {Q : β → Prop} {x : Except ε α} {g : α → Except ε β}
    (hx : Post R P x) (hg : ∀ a, P a → Post R Q (g a)) : Post R Q (x >>= g) := by
  cases x with
  | error e => exact hx
  | ok a => exact hg a hx

/-- A fold over `l` whose passes keep an invariant indexed by the elements
passed; each pass may use where it stands in `l`. -/
theorem Post.foldlM {I : List α → β → Prop} {g : β → α → Except ε β} (l : List α)
    (hstep : ∀ pre a rest t, pre ++ a :: rest = l → I pre t → Post R (I (pre ++ [a])) (g t a))
    {s : β} (hs : I [] s) : Post R (I l) (l.foldlM g s) := by
  -- the fold of what is left of `l` after the passes `pre`
  suffices h : ∀ rest pre t, pre ++ rest = l → I pre t → Post R (I l) (rest.foldlM g t) from
    h l [] s rfl hs
  intro rest
  induction rest with
  | nil =>
    intro pre t hpre ht
    rw [List.append_nil] at hpre
    subst hpre
    exact ht
  | cons a rest ih =>
    intro pre t hpre ht
    rw [List.foldlM_cons]
    exact (hstep pre a rest t hpre ht).bind fun t' ht' =>
      ih (pre ++ [a]) t' (by rw [List.append_assoc]; exact hpre) ht'

/-- `Post.foldlM` for `for (j = a; j < a + n; j++)`, the invariant indexed by the
index reached. -/
theorem Post.foldlM_range' {I : Nat → β → Prop} {g : β → Nat → Except ε β} (a n : Nat)
    (hstep : ∀ j, a ≤ j → j < a + n → ∀ t, I j t → Post R (I (j + 1)) (g t j))
    {s : β} (hs : I a s) : Post R (I (a + n)) ((List.range' a n).foldlM g s) := by
  induction n generalizing a s with
  | zero => exact hs
  | succ n ih =>
    rw [List.range'_succ, List.foldlM_cons]
    refine (hstep a (Nat.le_refl a) (by omega) s hs).bind fun t ht => ?_
    have hrest := ih (a + 1) (fun j hj hjn => hstep j (by omega) (by omega)) ht
    rwa [Nat.add_right_comm, Nat.add_assoc] at hrest

end Post

end Xv6.Lib
