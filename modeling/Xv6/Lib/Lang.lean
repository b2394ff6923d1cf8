import Mathlib.Computability.Language

/-!
# Languages read at the start of a text

A matcher that looks for a pattern at the start of a text succeeds when some
prefix of the text is a word of the pattern's language, or the whole text is
when the pattern is anchored at its end. `PrefixIn L e t` says that for a
`Language` of Mathlib. Its rules follow how a language is built:

* `prefixIn_one` — the empty pattern, whose only word is `[]`;
* `prefixIn_mul` — a concatenation takes a word of the left language off the
  front of the text and leaves the rest to the right one;
* `mem_kstar_letters` — a star over one-letter words is a word of any length
  whose every letter is allowed; `prefixIn_letters_mul` and
  `prefixIn_kstar_letters_mul` are the two shapes a matcher meets.
-/

namespace Xv6.Lib

open Computability

variable {α : Type*}

/-- Some prefix of `t` is a word of `L`, and it is all of `t` when `e`. -/
def PrefixIn (L : Language α) (e : Bool) (t : List α) : Prop :=
  ∃ w ∈ L, w <+: t ∧ (e → w = t)

/-- The one-letter words whose letter satisfies `P`. -/
def letters (P : α → Prop) : Language α := {w | ∃ x, P x ∧ w = [x]}

theorem mem_letters {P : α → Prop} {w : List α} : w ∈ letters P ↔ ∃ x, P x ∧ w = [x] :=
  Iff.rfl

theorem prefixIn_one {e : Bool} {t : List α} : PrefixIn 1 e t ↔ (e → t = []) := by
  constructor
  · rintro ⟨w, hw, -, he⟩ h
    rw [Language.mem_one] at hw
    rw [← he h, hw]
  · intro h
    exact ⟨[], (Language.mem_one _).mpr rfl, List.nil_prefix, fun he => (h he).symm⟩

theorem prefixIn_mul {L M : Language α} {e : Bool} {t : List α} :
    PrefixIn (L * M) e t ↔ ∃ a ∈ L, ∃ t', t = a ++ t' ∧ PrefixIn M e t' := by
  constructor
  · rintro ⟨w, hw, ⟨r, hr⟩, he⟩
    obtain ⟨a, ha, b, hb, rfl⟩ := Language.mem_mul.mp hw
    refine ⟨a, ha, b ++ r, by rw [← hr, List.append_assoc], b, hb, List.prefix_append _ _,
      fun h => ?_⟩
    -- the whole text is `a ++ b`, so nothing follows `b`
    have hab := he h
    rw [← hr, List.append_assoc, List.append_right_inj] at hab
    exact hab
  · rintro ⟨a, ha, t', rfl, b, hb, ⟨r, rfl⟩, he⟩
    refine ⟨a ++ b, Language.mem_mul.mpr ⟨a, ha, b, hb, rfl⟩, ⟨r, by rw [List.append_assoc]⟩,
      fun h => ?_⟩
    rw [← he h]

theorem flatten_map_singleton (w : List α) : (w.map fun x => [x]).flatten = w := by
  induction w with
  | nil => rfl
  | cons x w ih => rw [List.map_cons, List.flatten_cons, ih, List.singleton_append]

/-- A word of the star of one-letter words is any word over the allowed letters. -/
theorem mem_kstar_letters {P : α → Prop} {w : List α} : w ∈ (letters P)∗ ↔ ∀ x ∈ w, P x := by
  rw [Language.mem_kstar]
  constructor
  · rintro ⟨L, rfl, hL⟩ x hx
    obtain ⟨y, hy, hxy⟩ := List.mem_flatten.mp hx
    obtain ⟨z, hz, rfl⟩ := hL y hy
    rw [List.mem_singleton] at hxy
    exact hxy ▸ hz
  · intro h
    refine ⟨w.map fun x => [x], (flatten_map_singleton w).symm, fun y hy => ?_⟩
    obtain ⟨x, hx, rfl⟩ := List.mem_map.mp hy
    exact ⟨x, h x hx, rfl⟩

theorem prefixIn_letters_mul {P : α → Prop} {M : Language α} {e : Bool} {t : List α} :
    PrefixIn (letters P * M) e t ↔ ∃ x t', t = x :: t' ∧ P x ∧ PrefixIn M e t' := by
  rw [prefixIn_mul]
  constructor
  · rintro ⟨a, ⟨x, hx, rfl⟩, t', rfl, hM⟩
    exact ⟨x, t', rfl, hx, hM⟩
  · rintro ⟨x, t', rfl, hx, hM⟩
    exact ⟨[x], ⟨x, hx, rfl⟩, t', rfl, hM⟩

theorem prefixIn_kstar_letters_mul {P : α → Prop} {M : Language α} {e : Bool} {t : List α} :
    PrefixIn ((letters P)∗ * M) e t ↔
      ∃ u v, t = u ++ v ∧ (∀ x ∈ u, P x) ∧ PrefixIn M e v := by
  rw [prefixIn_mul]
  constructor
  · rintro ⟨u, hu, v, rfl, hM⟩
    exact ⟨u, v, rfl, mem_kstar_letters.mp hu, hM⟩
  · rintro ⟨u, v, rfl, hu, hM⟩
    exact ⟨u, mem_kstar_letters.mpr hu, v, rfl, hM⟩

end Xv6.Lib
