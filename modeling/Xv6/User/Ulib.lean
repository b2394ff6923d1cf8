import Mathlib.Data.Nat.Digits.Defs
import Mathlib.Tactic.Ring
import Xv6.Lib.Buffer

/-!
# String and memory routines of the user library (`user/ulib.c`)

`strchr` and `memmove` on a buffer, a pointer into it being an offset. Every
byte is read and written through the checked accesses of `Xv6.Lib.Buffer`.

* `strchr_skip`, `strchr_at_nul`, `strchr_at`: the scan passes over bytes
  that are neither the NUL nor the one it looks for, and stops at the first
  of those two;
* `strlen_of_nul`: `strlen` counts the bytes before the first NUL;
* `atoiLoop_digits`: `atoi` reads the decimal number a string of digits
  writes, wrapped to an `int`;
* `memmove_spec`: `memmove` copies the source range to the destination range
  whichever way they overlap, and leaves every other byte alone. Its two loops
  are `memmoveUp` (`src > dst`, ascending) and `memmoveDown` (descending).
-/

namespace Xv6.User

open Xv6.Lib

variable {n : Nat}

/-! ## `strchr` -/

/-- `strchr(s, c)` with `s` at offset `i`:
`for (; *s; s++) if (*s == c) return s; return 0;` -/
def strchr (b : Bytes n) (i : Nat) (c : UInt8) : Except String (Option Nat) :=
  if i < n then
    if b.get i = 0 then .ok none
    else if b.get i = c then .ok (some i)
    else strchr b (i + 1) c
  else .error "read past the end of the buffer"
termination_by n - i

/-- The scan passes over bytes that are neither the NUL nor `c`. -/
theorem strchr_skip {b : Bytes n} {c : UInt8} (s : List UInt8) :
    ∀ {i : Nat}, b.slice i s.length = s → (∀ x ∈ s, x ≠ 0 ∧ x ≠ c) → i + s.length ≤ n →
      strchr b i c = strchr b (i + s.length) c := by
  induction s with
  | nil => intro i _ _ _; rfl
  | cons x s ih =>
    intro i hs hx hi
    rw [List.length_cons, Bytes.slice_succ, List.cons.injEq] at hs
    have hx' := hx x List.mem_cons_self
    rw [strchr, if_pos (by simp at hi; omega), if_neg (hs.1 ▸ hx'.1), if_neg (hs.1 ▸ hx'.2),
      ih hs.2 (fun y hy => hx y (List.mem_cons_of_mem x hy)) (by simp at hi; omega),
      List.length_cons]
    congr 1
    omega

theorem strchr_at_nul {b : Bytes n} {i : Nat} (hi : i < n) (h : b.get i = 0) (c : UInt8) :
    strchr b i c = .ok none := by
  rw [strchr, if_pos hi, if_pos h]

theorem strchr_at {b : Bytes n} {i : Nat} {c : UInt8} (hi : i < n) (h : b.get i = c)
    (hc : c ≠ 0) : strchr b i c = .ok (some i) := by
  rw [strchr, if_pos hi, if_neg (h ▸ hc), if_pos h]

/-- On a string `s` followed by its NUL, `strchr` finds the first `c` of `s`,
and never the NUL. -/
theorem strchr_spec {b : Bytes n} (c : UInt8) (s : List UInt8) :
    ∀ {i : Nat}, b.slice i (s.length + 1) = s ++ [0] → 0 ∉ s → i + s.length < n →
      strchr b i c = .ok (if c ∈ s then some (i + s.idxOf c) else none) := by
  induction s with
  | nil =>
    intro i hs _ hi
    rw [List.length_nil, Bytes.slice_succ, List.nil_append, List.cons.injEq] at hs
    rw [strchr_at_nul (by simpa using hi) hs.1, if_neg List.not_mem_nil]
  | cons y s ih =>
    intro i hs h0 hi
    rw [List.length_cons, Bytes.slice_succ, List.cons_append, List.cons.injEq] at hs
    have hy : y ≠ 0 := fun e => h0 (e ▸ List.mem_cons_self)
    simp only [List.length_cons] at hi
    by_cases hyc : y = c
    · -- the scan stops at `y`
      subst hyc
      rw [strchr_at (by omega) hs.1 hy, if_pos List.mem_cons_self, List.idxOf_cons_self,
        Nat.add_zero]
    · -- past `y`, the rest of the string decides
      have hstep : strchr b i c = strchr b (i + 1) c := by
        rw [strchr, if_pos (by omega), if_neg (hs.1 ▸ hy), if_neg (hs.1 ▸ hyc)]
      have hidx : (y :: s).idxOf c = s.idxOf c + 1 := by
        rw [List.idxOf_cons, show (y == c) = false from beq_false_of_ne hyc, cond_false]
      rw [hstep, ih hs.2 (fun h => h0 (List.mem_cons_of_mem y h)) (by omega), hidx]
      by_cases hc : c ∈ s
      · rw [if_pos hc, if_pos (List.mem_cons_of_mem y hc), Nat.add_assoc, Nat.add_comm 1]
      · rw [if_neg hc, if_neg (by simp [hc, Ne.symm hyc])]

/-! ## `strlen` -/

/-- `strlen(s)` with `s` at offset `i`: `for (n = 0; s[n]; n++);` -/
def strlen (b : Bytes n) (i : Nat) : Except String Nat :=
  if i < n then
    if b.get i = 0 then .ok 0 else (strlen b (i + 1)).map (· + 1)
  else .error "read past the end of the buffer"
termination_by n - i

/-- From any offset before the first NUL, `strlen` counts the bytes up to it. -/
theorem strlen_of_nul {b : Bytes n} {es : Nat} (hes : es < n) (hnul : b.get es = 0)
    (hne : ∀ i < es, b.get i ≠ 0) (i : Nat) (hi : i ≤ es) : strlen b i = .ok (es - i) := by
  fun_induction strlen b i with
  | case1 i _ h0 =>
    -- the first NUL from `i` on is the one at `es`
    have : i = es := by
      by_contra hne'
      exact hne i (by omega) h0
    rw [this, Nat.sub_self]
  | case2 i _ h0 ih =>
    have hlt : i < es := Nat.lt_of_le_of_ne hi fun h => h0 (h ▸ hnul)
    rw [ih (by omega)]
    simp only [Except.map, Except.ok.injEq]
    omega
  | case3 i hn => exact absurd (Nat.lt_of_le_of_lt hi hes) hn

/-! ## `atoi` -/

/-- `'0' <= c && c <= '9'`. -/
def isDigit (c : UInt8) : Bool := 48 ≤ c && c ≤ 57

/-- The loop of `atoi(s)` from offset `i`, `acc` being its `n`:
`while ('0' <= *s && *s <= '9') n = n * 10 + *s++ - '0';`, in `int`
arithmetic. -/
def atoiLoop (b : Bytes n) (i : Nat) (acc : Int32) : Except String Int32 :=
  if i < n then
    if isDigit (b.get i) then atoiLoop b (i + 1) (acc * 10 + Int32.ofNat (b.get i).toNat - 48)
    else .ok acc
  else .error "read past the end of the buffer"
termination_by n - i

/-- `atoi(s)` with `s` at offset `i`. -/
def atoi (b : Bytes n) (i : Nat) : Except String Int32 := atoiLoop b i 0

/-- One more digit `d` after the number `a`, in `int` arithmetic. -/
theorem ofNat_push_digit (a : Nat) {d : UInt8} (hd : isDigit d = true) :
    Int32.ofNat a * 10 + Int32.ofNat d.toNat - 48 = Int32.ofNat (a * 10 + (d.toNat - 48)) := by
  have h48 : 48 ≤ d.toNat := by
    simp only [isDigit, Bool.and_eq_true, decide_eq_true_eq] at hd
    exact UInt8.le_iff_toNat_le.mp hd.1
  rw [← Nat.add_sub_assoc h48, Int32.ofNat_sub _ _ (by omega), Int32.ofNat_add, Int32.ofNat_mul]
  rfl

/-- On digits `ds` ended by a byte that is not one, the loop reads the
number `ds` writes in decimal after the `a` it has: its value wraps as the
`int` does. -/
theorem atoiLoop_digits {b : Bytes n} (ds : List UInt8) (hds : ∀ d ∈ ds, isDigit d = true) :
    ∀ {i : Nat} (a : Nat), b.slice i ds.length = ds → i + ds.length < n →
      isDigit (b.get (i + ds.length)) = false →
      atoiLoop b i (Int32.ofNat a) =
        .ok (Int32.ofNat (a * 10 ^ ds.length + Nat.ofDigits 10 (ds.reverse.map fun d => d.toNat - 48))) := by
  induction ds with
  | nil =>
    intro i a _ hi hstop
    rw [atoiLoop, if_pos (by simpa using hi), if_neg (by simpa using hstop)]
    simp
  | cons d ds ih =>
    intro i a hs hi hstop
    rw [List.length_cons, Bytes.slice_succ, List.cons.injEq] at hs
    have hd := hds d List.mem_cons_self
    simp only [List.length_cons] at hi hstop
    rw [atoiLoop, if_pos (by omega), if_pos (hs.1 ▸ hd), hs.1, ofNat_push_digit a hd,
      ih (fun d' h => hds d' (List.mem_cons_of_mem d h)) _ hs.2 (by omega)
        (by rw [Nat.add_right_comm, Nat.add_assoc]; exact hstop)]
    -- the new digit is the most significant so far
    congr 2
    rw [List.length_cons, List.reverse_cons, List.map_append, Nat.ofDigits_append, List.length_map,
      List.length_reverse, List.map_singleton, Nat.ofDigits_singleton, Nat.pow_succ]
    ring

/-! ## `memmove` -/

/-- `while (n-- > 0) *dst++ = *src++;` -/
def memmoveUp (b : Bytes n) (dst src : Nat) : Nat → Except String (Bytes n)
  | 0 => .ok b
  | k + 1 => do
    let x ← b.load src
    let b ← b.store dst x
    memmoveUp b (dst + 1) (src + 1) k

/-- `dst += n; src += n; while (n-- > 0) *--dst = *--src;` -/
def memmoveDown (b : Bytes n) (dst src : Nat) : Nat → Except String (Bytes n)
  | 0 => .ok b
  | k + 1 => do
    let x ← b.load (src + k)
    let b ← b.store (dst + k) x
    memmoveDown b dst src k

/-- `memmove(dst, src, n)`: ascending when the source lies above the
destination, descending otherwise. -/
def memmove (b : Bytes n) (dst src len : Nat) : Except String (Bytes n) :=
  if src > dst then memmoveUp b dst src len else memmoveDown b dst src len

/-- What a move of `len` bytes from `src` to `dst` leaves in the buffer. -/
def Moved (b b' : Bytes n) (dst src len : Nat) : Prop :=
  ∀ i, b'.get i = if dst ≤ i ∧ i < dst + len then b.get (src + (i - dst)) else b.get i

/-- Ascending, each source byte is read before the destination reaches it. -/
theorem memmoveUp_spec (k : Nat) :
    ∀ {b : Bytes n} {dst src : Nat}, dst ≤ src → src + k ≤ n →
      ∃ b', memmoveUp b dst src k = .ok b' ∧ Moved b b' dst src k := by
  induction k with
  | zero => intro b dst src _ _; exact ⟨b, rfl, fun i => by simp⟩
  | succ k ih =>
    intro b dst src hds hk
    obtain ⟨b', hb', hmoved⟩ := ih (b := b.set dst (b.get src)) (by omega : dst + 1 ≤ src + 1)
      (by omega)
    refine ⟨b', ?_, fun i => ?_⟩
    · simp only [memmoveUp, Bytes.load_of_lt (by omega : src < n),
        Bytes.store_of_lt (by omega : dst < n)]
      exact hb'
    · -- the first byte is the one stored here, the others come from the loop
      rw [hmoved i, Bytes.get_set, Bytes.get_set]
      split_ifs <;> first | rfl | omega | (congr 1; omega)

/-- Descending, each source byte is read before the destination reaches it. -/
theorem memmoveDown_spec (k : Nat) :
    ∀ {b : Bytes n} {dst src : Nat}, src ≤ dst → dst + k ≤ n →
      ∃ b', memmoveDown b dst src k = .ok b' ∧ Moved b b' dst src k := by
  induction k with
  | zero => intro b dst src _ _; exact ⟨b, rfl, fun i => by simp⟩
  | succ k ih =>
    intro b dst src hsd hk
    obtain ⟨b', hb', hmoved⟩ := ih (b := b.set (dst + k) (b.get (src + k))) hsd (by omega)
    refine ⟨b', ?_, fun i => ?_⟩
    · simp only [memmoveDown, Bytes.load_of_lt (by omega : src + k < n),
        Bytes.store_of_lt (by omega : dst + k < n)]
      exact hb'
    · -- the last byte is the one stored here, the others come from the loop
      rw [hmoved i, Bytes.get_set, Bytes.get_set]
      split_ifs <;> first | rfl | omega | (congr 1; omega)

/-- `memmove` copies the source range to the destination range, however the
two overlap. -/
theorem memmove_spec (b : Bytes n) {dst src len : Nat} (hd : dst + len ≤ n) (hs : src + len ≤ n) :
    ∃ b', memmove b dst src len = .ok b' ∧ Moved b b' dst src len := by
  unfold memmove
  split_ifs with h
  · exact memmoveUp_spec len (by omega) hs
  · exact memmoveDown_spec len (by omega) hd

/-- After a move the destination holds the source's old bytes. -/
theorem Moved.slice {b b' : Bytes n} {dst src len : Nat} (h : Moved b b' dst src len) :
    b'.slice dst len = b.slice src len :=
  Bytes.slice_congr fun k hk => by
    rw [h (dst + k), if_pos (by omega)]
    congr 1
    omega

end Xv6.User
