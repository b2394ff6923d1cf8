import Mathlib.Data.List.Rotate
import Mathlib.Data.List.Sort
import Mathlib.Dynamics.PeriodicPts.Defs

/-!
# Rings of links, and loops that walk them

A singly linked ring is a list `C` with a function `next` taking each element
to the one after it and the last back to the first: `C.map next = C.rotate 1`
(`IsCycle`). A loop `for (p = x; !Q(p); p = next(p))` over such a ring reaches
`next^[d] x` after `d` failed tests (`iterate_skip`), and from any element it
meets every element within `C.length` steps (`IsCycle.reach`), so it stops
at the first element of the rotation that passes the test (`IsCycle.first`).

A ring kept in increasing order from a least element `b` is described link by
link: every element's `next` is the least element above it, and the greatest
links back to `b` (`NextUp`). That description is what an insertion or a
removal changes locally; `isCycle_of_nextUp` turns it back into the ring.
-/

namespace Xv6.Lib

variable {α γ : Type}

/-- `next` takes each element of `C` to the one after it, the last to the first. -/
def IsCycle (next : α → α) (C : List α) : Prop := C.map next = C.rotate 1

/-! ## Loops that follow a link -/

/-- A loop that steps to `next p` whenever its test fails at `p` is, after `d`
failed tests, at `next^[d] x`. -/
theorem iterate_skip {next : α → α} {Q : α → Prop} {F : α → Nat → γ}
    (hF : ∀ p k, ¬ Q p → F p (k + 1) = F (next p) k) {x : α} {d : Nat}
    (hd : ∀ j < d, ¬ Q (next^[j] x)) (k : Nat) : F x (k + d) = F (next^[d] x) k := by
  induction d generalizing x with
  | zero => rfl
  | succ d ih =>
    have hx : ¬ Q x := hd 0 (Nat.succ_pos d)
    have hrest : ∀ j < d, ¬ Q (next^[j] (next x)) := by
      intro j hj
      rw [← Function.iterate_succ_apply]
      exact hd (j + 1) (by omega)
    rw [← Nat.add_assoc, hF x (k + d) hx, ih hrest, Function.iterate_succ_apply]

namespace IsCycle

variable {next : α → α} {C : List α}

theorem getElem?_succ (hc : IsCycle next C) {i : Nat} (hi : i < C.length) :
    C[(i + 1) % C.length]? = some (next C[i]) := by
  have h := congrArg (fun l => l[i]?) hc
  simp only [List.getElem?_map, List.getElem?_eq_getElem hi] at h
  rw [List.getElem?_eq_getElem (by simpa using hi), List.getElem_rotate] at h
  rw [List.getElem?_eq_getElem (Nat.mod_lt _ (by omega)), ← h]
  rfl

/-- `j` steps from element `i` lead to element `(i + j) % C.length`. -/
theorem getElem?_iterate (hc : IsCycle next C) {i : Nat} (hi : i < C.length) (j : Nat) :
    C[(i + j) % C.length]? = some (next^[j] C[i]) := by
  induction j with
  | zero => simp [Nat.mod_eq_of_lt hi]
  | succ j ih =>
    have hlt : (i + j) % C.length < C.length := Nat.mod_lt _ (by omega)
    rw [List.getElem?_eq_getElem hlt, Option.some.injEq] at ih
    have := hc.getElem?_succ hlt
    rw [Nat.mod_add_mod, ih] at this
    rw [Function.iterate_succ_apply', ← Nat.add_assoc, this]

/-- From any element, every element is reached in fewer than `C.length` steps. -/
theorem reach (hc : IsCycle next C) {x y : α} (hx : x ∈ C) (hy : y ∈ C) :
    ∃ j < C.length, next^[j] x = y := by
  obtain ⟨i, hi, rfl⟩ := List.mem_iff_getElem.mp hx
  obtain ⟨k, hk, rfl⟩ := List.mem_iff_getElem.mp hy
  refine ⟨(k + C.length - i) % C.length, Nat.mod_lt _ (by omega), ?_⟩
  have h := hc.getElem?_iterate hi ((k + C.length - i) % C.length)
  rw [Nat.add_mod_mod, show i + (k + C.length - i) = k + C.length by omega, Nat.add_mod_right,
    Nat.mod_eq_of_lt hk, List.getElem?_eq_getElem hk, Option.some.injEq] at h
  exact h.symm

/-- A loop from `x` whose test some element passes stops within `C.length`
steps, at the first element that passes. -/
theorem first (hc : IsCycle next C) {Q : α → Prop} {x : α} (hx : x ∈ C)
    (hQ : ∃ y ∈ C, Q y) : ∃ d < C.length, Q (next^[d] x) ∧ ∀ j < d, ¬ Q (next^[j] x) := by
  classical
  obtain ⟨y, hy, hQy⟩ := hQ
  obtain ⟨j, hj, rfl⟩ := hc.reach hx hy
  have hex : ∃ d, Q (next^[d] x) := ⟨j, hQy⟩
  refine ⟨Nat.find hex, Nat.lt_of_le_of_lt (Nat.find_min' hex hQy) hj, Nat.find_spec hex,
    fun k hk => Nat.find_min hex hk⟩

/-- The elements met on the way stay in the ring. -/
theorem iterate_mem (hc : IsCycle next C) {x : α} (hx : x ∈ C) (j : Nat) : next^[j] x ∈ C := by
  obtain ⟨i, hi, rfl⟩ := List.mem_iff_getElem.mp hx
  exact List.mem_of_getElem? (hc.getElem?_iterate hi j)

/-- A loop that walks the ring from `next x` until its test passes or it is
back at `x` stops within `C.length` steps. -/
theorem first_or_back (hc : IsCycle next C) {Q : α → Prop} {x : α}
    (hx : x ∈ C) : ∃ d < C.length, (Q (next^[d + 1] x) ∨ next^[d + 1] x = x) ∧
      ∀ j < d, ¬ Q (next^[j + 1] x) ∧ next^[j + 1] x ≠ x := by
  obtain ⟨d, hd, hstop, hbefore⟩ :=
    hc.first (Q := fun y => Q y ∨ y = x) (hc.iterate_mem hx 1) ⟨x, hx, .inr rfl⟩
  refine ⟨d, hd, ?_, fun j hj => ?_⟩
  · rw [Function.iterate_succ_apply]
    exact hstop
  · rw [Function.iterate_succ_apply]
    exact not_or.mp (hbefore j hj)

/-- A walk that is back at `x` after `d + 1` steps has met every element of
the ring on the way. -/
theorem mem_of_back (hc : IsCycle next C) {x y : α} {d : Nat} (hx : x ∈ C)
    (hback : next^[d + 1] x = x) (hy : y ∈ C) : ∃ j ≤ d, next^[j + 1] x = y := by
  obtain ⟨i, -, rfl⟩ := hc.reach hx hy
  have hper : Function.IsPeriodicPt next (d + 1) x := hback
  rw [← hper.iterate_mod_apply i]
  rcases h : i % (d + 1) with _ | j
  · exact ⟨d, le_refl d, hback.trans rfl⟩
  · have : j < d := by
      have hlt := Nat.mod_lt i (show 0 < d + 1 by omega)
      rw [h] at hlt
      omega
    exact ⟨j, le_of_lt this, rfl⟩

end IsCycle

/-! ## Rings in increasing order -/

section Sorted

variable [LinearOrder α]

/-- `n` follows `c` in the ring `b :: F` kept in increasing order: the least
element of `F` above `c`, or `b` when `F` has none. -/
def NextUp (F : List α) (b c n : α) : Prop :=
  (n ∈ F ∧ c < n ∧ ∀ x ∈ F, c < x → n ≤ x) ∨ (n = b ∧ ∀ x ∈ F, x ≤ c)

/-- The element after `c` is determined. -/
theorem NextUp.unique {F : List α} {b c n n' : α} (h : NextUp F b c n) (h' : NextUp F b c n') :
    n = n' := by
  rcases h with ⟨hn, hcn, hmin⟩ | ⟨rfl, hall⟩ <;> rcases h' with ⟨hn', hcn', hmin'⟩ | ⟨rfl, hall'⟩
  · exact le_antisymm (hmin n' hn' hcn') (hmin' n hn hcn)
  · exact absurd (hall' n hn) (not_le.mpr hcn)
  · exact absurd (hall n' hn') (not_le.mpr hcn')
  · rfl

/-- Only the elements above `c` matter. -/
theorem NextUp.congr {F F' : List α} {b c n : α} (h : NextUp F b c n)
    (hF : ∀ x, c < x → (x ∈ F ↔ x ∈ F')) : NextUp F' b c n := by
  rcases h with ⟨hn, hcn, hmin⟩ | ⟨hb, hall⟩
  · exact .inl ⟨(hF n hcn).mp hn, hcn, fun x hx hcx => hmin x ((hF x hcx).mpr hx) hcx⟩
  · refine .inr ⟨hb, fun x hx => ?_⟩
    by_contra hlt
    exact absurd (hall x ((hF x (not_le.mp hlt)).mpr hx)) hlt

/-- What follows `c` may be read from what follows `e`, when the elements
of `F'` above `c` are those of `F` above `e`, and those lie above `c`. -/
theorem NextUp.shift {F F' : List α} {b c e n : α} (h : NextUp F b e n)
    (hF : ∀ x, c < x → (x ∈ F' ↔ e < x ∧ x ∈ F)) (hce : ∀ x ∈ F, e < x → c < x) :
    NextUp F' b c n := by
  rcases h with ⟨hn, hen, hmin⟩ | ⟨hb, hall⟩
  · have hcn : c < n := hce n hn hen
    refine .inl ⟨(hF n hcn).mpr ⟨hen, hn⟩, hcn, fun x hx hcx => ?_⟩
    obtain ⟨hex, hxF⟩ := (hF x hcx).mp hx
    exact hmin x hxF hex
  · refine .inr ⟨hb, fun x hx => ?_⟩
    by_contra hlt
    obtain ⟨hex, hxF⟩ := (hF x (not_le.mp hlt)).mp hx
    exact absurd (hall x hxF) (not_le.mpr hex)

/-- The element after `c`, when there is one above it, only needs the
elements up to it to stay. -/
theorem NextUp.congr_upto {F F' : List α} {b c n : α} (h : NextUp F b c n) (hn : n ∈ F)
    (hcn : c < n) (hF : ∀ x, c < x → x ≤ n → (x ∈ F ↔ x ∈ F')) : NextUp F' b c n := by
  have hmin : ∀ x ∈ F, c < x → n ≤ x := by
    rcases h with ⟨-, -, hmin⟩ | ⟨-, hall⟩
    · exact hmin
    · exact absurd (hall n hn) (not_le.mpr hcn)
  refine .inl ⟨(hF n hcn le_rfl).mp hn, hcn, fun x hx hcx => ?_⟩
  by_contra hlt
  have hxn : x ≤ n := le_of_lt (not_le.mp hlt)
  exact hlt (hmin x ((hF x hcx hxn).mpr hx) hcx)

/-- Below any element above `b` there is a greatest element of `b :: F`. -/
theorem exists_greatest_below (F : List α) {b y : α} (hb : b < y) :
    ∃ p ∈ b :: F, p < y ∧ ∀ x ∈ F, x < y → x ≤ p := by
  induction F with
  | nil => exact ⟨b, List.mem_cons_self, hb, fun x hx => absurd hx List.not_mem_nil⟩
  | cons a F ih =>
    obtain ⟨p, hp, hpy, hmax⟩ := ih
    by_cases ha : a < y ∧ p < a
    · refine ⟨a, List.mem_cons_of_mem _ List.mem_cons_self, ha.1, fun x hx hxy => ?_⟩
      rcases List.mem_cons.mp hx with rfl | hx
      · exact le_rfl
      · exact le_of_lt (lt_of_le_of_lt (hmax x hx hxy) ha.2)
    · refine ⟨p, ?_, hpy, fun x hx hxy => ?_⟩
      · rcases List.mem_cons.mp hp with rfl | hp
        · exact List.mem_cons_self
        · exact List.mem_cons_of_mem _ (List.mem_cons_of_mem _ hp)
      · rcases List.mem_cons.mp hx with rfl | hx
        · exact not_lt.mp fun hlt => ha ⟨hxy, hlt⟩
        · exact hmax x hx hxy

/-- The link of a ring in increasing order, read off its list. -/
theorem nextUp_getElem {b : α} {F : List α} (hs : (b :: F).Pairwise (· < ·)) {i : Nat}
    (hi : i < (b :: F).length) {n : α} (hn : (b :: F)[(i + 1) % (b :: F).length]? = some n) :
    NextUp F b (b :: F)[i] n := by
  have hidx := List.pairwise_iff_getElem.mp hs
  -- an element of `F` above `(b :: F)[i]` sits further along the list
  have hafter : ∀ x ∈ F, (b :: F)[i] < x → ∃ j, ∃ hj : j < (b :: F).length, i < j ∧
      (b :: F)[j] = x := by
    intro x hx hlt
    obtain ⟨j, hj, rfl⟩ := List.mem_iff_getElem.mp hx
    refine ⟨j + 1, by simp; omega, ?_, rfl⟩
    by_contra hle
    rcases Nat.lt_or_ge (j + 1) i with hji | hji
    · exact absurd (hidx _ _ (by simp; omega) hi hji) (not_lt.mpr (le_of_lt hlt))
    · have : j + 1 = i := by omega
      subst this
      exact lt_irrefl _ hlt
  by_cases hlast : i + 1 < (b :: F).length
  · rw [Nat.mod_eq_of_lt hlast, List.getElem?_eq_getElem hlast, Option.some.injEq] at hn
    subst hn
    refine .inl ⟨?_, hidx _ _ hi hlast (Nat.lt_succ_self i), fun x hx hlt => ?_⟩
    · rw [List.getElem_cons_succ]
      exact List.getElem_mem _
    · obtain ⟨j, hj, hij, rfl⟩ := hafter x hx hlt
      rcases Nat.lt_or_ge (i + 1) j with h | h
      · exact le_of_lt (hidx _ _ hlast hj h)
      · have : j = i + 1 := by omega
        subst this
        exact le_refl _
  · -- the greatest element links back to `b`
    have hi' : i + 1 = (b :: F).length := by omega
    rw [hi', Nat.mod_self] at hn
    cases hn
    refine .inr ⟨rfl, fun x hx => ?_⟩
    by_contra hlt
    obtain ⟨j, hj, hij, -⟩ := hafter x hx (not_le.mp hlt)
    omega

/-- A ring whose every link is `NextUp` is the list in increasing order. -/
theorem isCycle_of_nextUp {next : α → α} {b : α} {F : List α}
    (hs : (b :: F).Pairwise (· < ·)) (h : ∀ c ∈ b :: F, NextUp F b c (next c)) :
    IsCycle next (b :: F) := by
  apply List.ext_getElem (by simp)
  intro i hi _
  simp only [List.length_map] at hi
  rw [List.getElem_map, List.getElem_rotate]
  have hlt : (i + 1) % (b :: F).length < (b :: F).length := Nat.mod_lt _ (by omega)
  exact (h _ (List.getElem_mem hi)).unique
    (nextUp_getElem hs hi (List.getElem?_eq_getElem hlt))

end Sorted

end Xv6.Lib
