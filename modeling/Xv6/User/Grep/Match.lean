import Xv6.Lib.Lang

/-!
# grep's matcher (`user/grep.c`)

`match`, `matchhere` and `matchstar` are the Kernighan–Pike matcher for the
operators `^ . * $`. Strings are the bytes before their NUL: `re[0] == '\0'`
is the empty list, and `re[1]` of a one-byte pattern is the NUL.

The meaning of a pattern is stated apart from the code. Read left to right,
a pattern is a leading `^` or not, a list of items (a byte, or a byte
followed by `*`) and a final `$` or not (`Pattern.read`); the items denote a
`Language` of Mathlib, a byte standing for itself or, for `.`, for any byte,
and a starred byte for any number of them. `matchRe_iff` says that `match`
decides that meaning: it returns 1 exactly when some suffix of the text (the
text itself after a `^`) starts with a word of the pattern's language (is
one, before a `$`). The three functions recurse on the pattern and the text,
so they are total.
-/

namespace Xv6.User.Grep

open Xv6.Lib Computability

/-! ## The code -/

/-- The loop of `matchstar(c, re, text)`, with `matchhere(re, ·)` as `here`:
try the text, then one more leading `c` (any byte for `.`) dropped. -/
def matchstar (c : UInt8) (here : List UInt8 → Bool) : List UInt8 → Bool
  | [] => here []
  | x :: text => here (x :: text) || ((x == c || c == 46) && matchstar c here text)

/-- `matchhere(re, text)`: search for `re` at the beginning of `text`. -/
def matchhere : List UInt8 → List UInt8 → Bool
  | [], _ => true
  | c :: 42 :: re, text => matchstar c (fun t => matchhere re t) text
  | [36], text => text.isEmpty
  | c :: re, x :: text => (c == 46 || c == x) && matchhere re text
  | _ :: _, [] => false

/-- The loop of `match`: `matchhere` at every suffix of the text, the empty
one last. -/
def matchSuffixes (re : List UInt8) : List UInt8 → Bool
  | [] => matchhere re []
  | x :: text => matchhere re (x :: text) || matchSuffixes re text

/-- `match(re, text)`. -/
def matchRe (re text : List UInt8) : Bool :=
  match re with
  | 94 :: re => matchhere re text
  | re => matchSuffixes re text

/-! ## What a pattern means -/

/-- The byte `c` of a pattern stands for `x`: `.` for any byte, any other
byte for itself. -/
def Stands (c x : UInt8) : Prop := c = 46 ∨ c = x

instance (c x : UInt8) : Decidable (Stands c x) := inferInstanceAs (Decidable (_ ∨ _))

/-- One item of a pattern. -/
inductive Item where
  /-- a byte: one byte it stands for -/
  | lit (c : UInt8)
  /-- a byte followed by `*`: any number of bytes it stands for -/
  | star (c : UInt8)
  deriving DecidableEq, Repr

/-- The language of an item. -/
def Item.lang : Item → Language UInt8
  | .lit c => letters (Stands c)
  | .star c => (letters (Stands c))∗

/-- A pattern read left to right. -/
structure Pattern where
  /-- it starts with `^` -/
  anchored : Bool
  items : List Item
  /-- it ends with a `$` that is not starred -/
  atEnd : Bool
  deriving DecidableEq, Repr

/-- The items after the leading `^`: a byte followed by `*` is starred, a `$`
that is the last byte anchors the end, every other byte stands for itself. -/
def readItems : List UInt8 → List Item × Bool
  | [] => ([], false)
  | c :: 42 :: re => (.star c :: (readItems re).1, (readItems re).2)
  | [36] => ([], true)
  | c :: re => (.lit c :: (readItems re).1, (readItems re).2)

/-- A pattern as its bytes read it. -/
def Pattern.read : List UInt8 → Pattern
  | 94 :: re => ⟨true, (readItems re).1, (readItems re).2⟩
  | re => ⟨false, (readItems re).1, (readItems re).2⟩

/-- The language of a pattern: its items' languages concatenated. -/
def Pattern.lang (p : Pattern) : Language UInt8 := (p.items.map Item.lang).prod

/-- A text matches a pattern when some suffix of it (the text itself if the
pattern is anchored) starts with a word of the pattern's language (is one, if
the pattern ends with `$`). -/
def Pattern.Matches (p : Pattern) (text : List UInt8) : Prop :=
  ∃ s, s <:+ text ∧ (p.anchored → s = text) ∧ PrefixIn p.lang p.atEnd s

example : Pattern.read [94, 97, 42, 46, 36] = ⟨true, [.star 97, .lit 46], true⟩ := by decide

/-! ## The matcher decides it -/

theorem stands_eq (c x : UInt8) : (c == 46 || c == x) = decide (Stands c x) := by
  rw [Bool.eq_iff_iff, Bool.or_eq_true, beq_iff_eq, beq_iff_eq, decide_eq_true_iff]
  rfl

theorem stands_eq' (c x : UInt8) : (x == c || c == 46) = decide (Stands c x) := by
  rw [Bool.eq_iff_iff, Bool.or_eq_true, beq_iff_eq, beq_iff_eq, decide_eq_true_iff, Stands,
    or_comm, @eq_comm _ x c]

/-- `matchstar` tries every split of the text after a run of bytes `c` stands for. -/
theorem matchstar_iff (c : UInt8) (here : List UInt8 → Bool) (text : List UInt8) :
    matchstar c here text = true ↔
      ∃ u v, text = u ++ v ∧ (∀ x ∈ u, Stands c x) ∧ here v = true := by
  induction text with
  | nil =>
    simp only [matchstar, List.nil_eq_append_iff]
    constructor
    · intro h
      exact ⟨[], [], ⟨rfl, rfl⟩, by simp, h⟩
    · rintro ⟨u, v, ⟨rfl, rfl⟩, -, h⟩
      exact h
  | cons x text ih =>
    simp only [matchstar, stands_eq', Bool.or_eq_true, Bool.and_eq_true, decide_eq_true_eq, ih,
      List.cons_eq_append_iff]
    constructor
    · rintro (h | ⟨hx, u, v, rfl, hu, h⟩)
      -- no byte taken, or `x` and then the run `u`
      · exact ⟨[], x :: text, .inl ⟨rfl, rfl⟩, by simp, h⟩
      · exact ⟨x :: u, v, .inr ⟨u, rfl, rfl⟩, List.forall_mem_cons.mpr ⟨hx, hu⟩, h⟩
    · rintro ⟨u, v, ⟨rfl, rfl⟩ | ⟨u', rfl, rfl⟩, hu, h⟩
      · exact .inl h
      · rw [List.forall_mem_cons] at hu
        exact .inr ⟨hu.1, u', v, rfl, hu.2, h⟩

/-- The language of the items `readItems` reads, at the start of a text. -/
def Accepts (re text : List UInt8) : Prop :=
  PrefixIn (((readItems re).1.map Item.lang).prod) (readItems re).2 text

/-- A byte that is neither starred nor a final `$` stands for itself. -/
theorem readItems_lit {c : UInt8} {re : List UInt8} (h42 : ∀ r, re = 42 :: r → False)
    (h36 : c = 36 → re = [] → False) :
    readItems (c :: re) = (.lit c :: (readItems re).1, (readItems re).2) := by
  -- the equation of `readItems` for its last case has `h42` and `h36` as side conditions
  match re with
  | [] => simp [readItems]
  | d :: r => simp [readItems]

theorem accepts_lit {c : UInt8} {re : List UInt8} (h42 : ∀ r, re = 42 :: r → False)
    (h36 : c = 36 → re = [] → False) (text : List UInt8) :
    Accepts (c :: re) text ↔ ∃ x t, text = x :: t ∧ Stands c x ∧ Accepts re t := by
  rw [Accepts, readItems_lit h42 h36]
  simp only [List.map_cons, List.prod_cons, Item.lang, prefixIn_letters_mul]
  rfl

/-- `matchhere` decides whether the text starts with a word of the pattern. -/
theorem matchhere_iff (re text : List UInt8) : matchhere re text = true ↔ Accepts re text := by
  fun_induction matchhere re text with
  | case1 text =>
    simp [Accepts, readItems, prefixIn_one]
  | case2 c re text ih =>
    -- a starred byte: `matchstar` over the rest of the pattern
    simp only [Accepts, readItems, List.map_cons, List.prod_cons, Item.lang,
      prefixIn_kstar_letters_mul, matchstar_iff, ih]
  | case3 text =>
    simp [Accepts, readItems, prefixIn_one, List.isEmpty_iff]
  | case4 c re x text h42 h36 ih =>
    -- any other byte: it takes the first byte of the text
    rw [accepts_lit h42 h36, stands_eq, Bool.and_eq_true, decide_eq_true_iff, ih]
    simp
  | case5 c re h42 h36 =>
    rw [accepts_lit h42 h36]
    simp

/-- `match`'s loop tries `matchhere` at every suffix of the text. -/
theorem matchSuffixes_iff (re text : List UInt8) :
    matchSuffixes re text = true ↔ ∃ s, s <:+ text ∧ matchhere re s = true := by
  induction text with
  | nil => simp [matchSuffixes]
  | cons x text ih =>
    simp only [matchSuffixes, Bool.or_eq_true, ih, List.suffix_cons_iff]
    constructor
    · rintro (h | ⟨s, hs, h⟩)
      · exact ⟨x :: text, .inl rfl, h⟩
      · exact ⟨s, .inr hs, h⟩
    · rintro ⟨s, rfl | hs, h⟩
      · exact .inl h
      · exact .inr ⟨s, hs, h⟩

/-- `match(re, text)` returns 1 exactly when the text matches the pattern `re` reads as. -/
theorem matchRe_iff (re text : List UInt8) :
    matchRe re text = true ↔ (Pattern.read re).Matches text := by
  unfold matchRe Pattern.read
  split
  · -- `^`: only the text itself
    rw [matchhere_iff]
    constructor
    · intro h
      exact ⟨text, List.suffix_refl text, fun _ => rfl, h⟩
    · rintro ⟨s, -, hs, h⟩
      rw [← hs rfl]
      exact h
  · rw [matchSuffixes_iff]
    constructor
    · rintro ⟨s, hs, h⟩
      exact ⟨s, hs, fun h => absurd h Bool.false_ne_true, (matchhere_iff re s).mp h⟩
    · rintro ⟨s, hs, -, h⟩
      exact ⟨s, hs, (matchhere_iff re s).mpr h⟩

end Xv6.User.Grep
