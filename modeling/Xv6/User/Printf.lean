import Xv6.Lib.Format
import Xv6.User.Ulib
import Mathlib.Tactic.NormNum

/-!
# The user library's `printf` (`user/printf.c`)

`vprintf(fd, fmt, ap)` walks its format with a two-state machine: in state
`0` it prints each byte but `%`, which moves it to state `'%'`; in state `'%'`
the byte is a conversion, read with up to two bytes of look-ahead. The model
returns the bytes that `putc` writes to `fd`, one `write` each.

Every integer conversion calls `printint(int fd, int xx, int base, int sgn)`,
whose magnitude is a `uint`. A `uint64` argument of `%ld`, `%lld`, `%lu`,
`%llu`, `%lx` or `%llx` is converted to the `int` parameter, which keeps its
low 32 bits.

* `printint_ok`: in base 10 or 16 `printint` always fits in `buf`: at most
  ten digits and a sign.
* `printU64Arg_u64`: a 64-bit conversion prints what the 32-bit one prints
  for the low 32 bits of its argument.
* `vprintf_ld_truncates`: `printf("%ld", 2^32)` prints `0`.
* `atoi_printint`: `atoi` reads back the number `printint` prints in base
  10, when it is not negative; at the `'-'` of a negative one it reads `0`.
-/

namespace Xv6.User

open Xv6.Lib

/-- `digits[] = "0123456789ABCDEF"`. -/
def digits : List UInt8 := [48, 49, 50, 51, 52, 53, 54, 55, 56, 57, 65, 66, 67, 68, 69, 70]

/-- An `int` as the `uint` it converts to. -/
def toUint (v : Int) : Nat := (v % 2 ^ 32).toNat

/-- `if (sgn && xx < 0) { neg = 1; x = -xx; } else { x = xx; }` with
`uint x`: whether the sign is printed, and the magnitude. -/
def magnitude (xx : Int32) (sgn : Bool) : Bool × Nat :=
  if sgn && decide (xx.toInt < 0) then (true, toUint (-xx.toInt)) else (false, toUint xx.toInt)

/-- `printint(fd, xx, base, sgn)`. -/
def printint (xx : Int32) (base : Nat) (sgn : Bool) : Except String (List UInt8) :=
  printDigits digits base (magnitude xx sgn).1 (magnitude xx sgn).2

/-- `printptr(fd, x)`: `0x`, then sixteen hexadecimal digits. -/
def printptr (x : UInt64) : List UInt8 := 48 :: 120 :: hexDigits digits 16 x

/-- `printint(fd, va_arg(ap, int), base, sgn)`. -/
def printIntArg (ap : List Arg) (base : Nat) (sgn : Bool) : Except String (List UInt8 × List Arg) := do
  let (v, ap) ← vaInt ap
  pure (← printint v base sgn, ap)

/-- `printint(fd, va_arg(ap, uint64), base, sgn)`: the `uint64` is passed to
the `int` parameter `xx`. -/
def printU64Arg (ap : List Arg) (base : Nat) (sgn : Bool) : Except String (List UInt8 × List Arg) := do
  let (v, ap) ← vaU64 ap
  pure (← printint v.toUInt32.toInt32 base sgn, ap)

/-- `"(null)"`. -/
def nullString : List UInt8 := [40, 110, 117, 108, 108, 41]

/-- The `if`-chain in state `'%'`, on the conversion byte `c0` and the
look-ahead `c1` and `c2`: the bytes printed, the arguments left, and how many
more format bytes the conversion takes (`i += 1`, `i += 2`). Unlike the
kernel's, it has no case for `c0 = 0`: the loop stops at a NUL first. -/
def convert (c0 c1 c2 : UInt8) (ap : List Arg) : Except String (List UInt8 × List Arg × Nat) :=
  -- 'd', 'l', 'u', 'x', 'p', 's', '%'
  if c0 = 100 then (fun r => (r.1, r.2, 0)) <$> printIntArg ap 10 true
  else if c0 = 108 ∧ c1 = 100 then (fun r => (r.1, r.2, 1)) <$> printU64Arg ap 10 true
  else if c0 = 108 ∧ c1 = 108 ∧ c2 = 100 then (fun r => (r.1, r.2, 2)) <$> printU64Arg ap 10 true
  else if c0 = 117 then (fun r => (r.1, r.2, 0)) <$> printIntArg ap 10 false
  else if c0 = 108 ∧ c1 = 117 then (fun r => (r.1, r.2, 1)) <$> printU64Arg ap 10 false
  else if c0 = 108 ∧ c1 = 108 ∧ c2 = 117 then (fun r => (r.1, r.2, 2)) <$> printU64Arg ap 10 false
  else if c0 = 120 then (fun r => (r.1, r.2, 0)) <$> printIntArg ap 16 false
  else if c0 = 108 ∧ c1 = 120 then (fun r => (r.1, r.2, 1)) <$> printU64Arg ap 16 false
  else if c0 = 108 ∧ c1 = 108 ∧ c2 = 120 then (fun r => (r.1, r.2, 2)) <$> printU64Arg ap 16 false
  else if c0 = 112 then (fun r => (printptr r.1, r.2, 0)) <$> vaU64 ap
  else if c0 = 115 then (fun r => (r.1.getD nullString, r.2, 0)) <$> vaStr ap
  else if c0 = 37 then .ok ([37], ap, 0)
  -- an unknown `%` sequence is printed to draw attention
  else .ok ([37, c0], ap, 0)

/-- The states of `vprintf`: `0`, and `'%'` after a `%`. -/
inductive State
  | plain
  | percent
  deriving DecidableEq, Repr

variable {m : Nat}

/-- `if (c0) c1 = fmt[i + 1] & 0xff; if (c1) c2 = fmt[i + 2] & 0xff;` -/
def lookahead (fmt : Bytes m) (i : Nat) (c0 : UInt8) : Except String (UInt8 × UInt8) := do
  let c1 ← if c0 ≠ 0 then fmt.load (i + 1) else pure 0
  let c2 ← if c1 ≠ 0 then fmt.load (i + 2) else pure 0
  pure (c1, c2)

/-- The loop `for (i = 0; fmt[i]; i++)` of `vprintf` from `fmt[i]` in state
`state`, with the arguments `ap` not yet taken: the bytes it writes.
`fmt[i]` is read as `Bytes.load` reads it. -/
def vprintfLoop (fmt : Bytes m) (i : Nat) (state : State) (ap : List Arg) :
    Except String (List UInt8) :=
  if i < m then
    if fmt.get i = 0 then .ok []
    else
      match state with
      | .plain =>
        if fmt.get i = 37 then vprintfLoop fmt (i + 1) .percent ap
        else (fmt.get i :: ·) <$> vprintfLoop fmt (i + 1) .plain ap
      | .percent => do
        let (c1, c2) ← lookahead fmt i (fmt.get i)
        let (s, ap, k) ← convert (fmt.get i) c1 c2 ap
        (s ++ ·) <$> vprintfLoop fmt (i + k + 1) .plain ap
  else .error "read past the end of the buffer"
termination_by m - i

/-- `vprintf(fd, fmt, ap)`: the bytes written to `fd`. `printf(fmt, ...)` is
`vprintf(1, fmt, ap)` and `fprintf(fd, fmt, ...)` is `vprintf(fd, fmt, ap)`. -/
def vprintf (fmt : Bytes m) (ap : List Arg) : Except String (List UInt8) :=
  vprintfLoop fmt 0 .plain ap

/-! ## `printint` -/

/-- In base 10 or more, `printint` fits in `buf`: a `uint` has at most ten
digits there, and the sign makes eleven. -/
theorem printint_ok (xx : Int32) {base : Nat} (hb : 10 ≤ base) (sgn : Bool) :
    printint xx base sgn =
      .ok ((if (magnitude xx sgn).1 then [45] else []) ++
        ((digitsOf base (magnitude xx sgn).2).map fun d => digits.getD d 0).reverse) := by
  have hx : (magnitude xx sgn).2 < base ^ 10 := by
    have h32 : (magnitude xx sgn).2 < 2 ^ 32 := by
      unfold magnitude toUint
      split <;> omega
    calc (magnitude xx sgn).2 < 2 ^ 32 := h32
      _ < 10 ^ 10 := by norm_num
      _ ≤ base ^ 10 := Nat.pow_le_pow_left hb 10
  have hlen : (digitsOf base (magnitude xx sgn).2).length ≤ 10 := by
    unfold digitsOf
    split
    · simp
    · exact (Nat.digits_length_le_iff (by omega) _).mpr hx
  rw [printint, printDigits_spec digits (by omega), if_pos (by split <;> omega)]

/-- An `int` conversion prints its argument and leaves the ones after it. -/
theorem printIntArg_int (v : Int32) (ap : List Arg) (base : Nat) (sgn : Bool) :
    printIntArg (.int v :: ap) base sgn = (·, ap) <$> printint v base sgn := by
  simp only [printIntArg, vaInt, bind, Except.bind]
  cases printint v base sgn <;> rfl

/-- A 64-bit conversion prints what the 32-bit one prints for the low 32
bits of its argument. -/
theorem printU64Arg_u64 (v : UInt64) (ap : List Arg) (base : Nat) (sgn : Bool) :
    printU64Arg (.u64 v :: ap) base sgn = printIntArg (.int v.toUInt32.toInt32 :: ap) base sgn := rfl

/-! ## One step of `vprintf` -/

section Step

variable {fmt : Bytes m} {i : Nat} {ap : List Arg}

theorem vprintfLoop_nul (hi : i < m) (h : fmt.get i = 0) (state : State) :
    vprintfLoop fmt i state ap = .ok [] := by
  cases state <;> rw [vprintfLoop, if_pos hi, if_pos h]

theorem vprintfLoop_percent (hi : i < m) (h : fmt.get i = 37) :
    vprintfLoop fmt i .plain ap = vprintfLoop fmt (i + 1) .percent ap := by
  rw [vprintfLoop, if_pos hi, if_neg (by rw [h]; decide)]
  simp only [if_pos h]

/-- In state `'%'`, a conversion whose look-ahead reads as `c1` and `c2`. -/
theorem vprintfLoop_convert (hi : i < m) (h0 : fmt.get i ≠ 0) {c1 c2 : UInt8}
    (hl : lookahead fmt i (fmt.get i) = .ok (c1, c2)) :
    vprintfLoop fmt i .percent ap = (convert (fmt.get i) c1 c2 ap).bind fun r =>
      (r.1 ++ ·) <$> vprintfLoop fmt (i + r.2.2 + 1) .plain r.2.1 := by
  rw [vprintfLoop, if_pos hi, if_neg h0]
  simp only [bind, Except.bind, hl]

end Step

/-- `printf("%ld", 2^32)`. -/
theorem vprintf_ld_truncates :
    vprintf ((Bytes.zero : Bytes 4).setList 0 [37, 108, 100, 0]) [.u64 4294967296] = .ok [48] := by
  have hl : lookahead ((Bytes.zero : Bytes 4).setList 0 [37, 108, 100, 0]) 1 108 = .ok (100, 0) := by
    decide
  -- the low 32 bits of `2^32 = 4294967296` are `0`, which prints as one digit
  have hconv : convert 108 100 0 [.u64 4294967296] = .ok ([48], [], 1) := by
    rw [convert, if_neg (by decide), if_pos (by decide), printU64Arg_u64, printIntArg_int,
      printint_ok _ (le_refl 10)]
    rfl
  rw [vprintf, vprintfLoop_percent (by decide) (by decide), vprintfLoop_convert (by decide) (by decide) hl,
    show (Bytes.zero.setList 0 [37, 108, 100, 0] : Bytes 4).get 1 = 108 by decide, hconv]
  have hend : vprintfLoop ((Bytes.zero : Bytes 4).setList 0 [37, 108, 100, 0]) 3 .plain [] = .ok [] :=
    vprintfLoop_nul (by decide) (by decide) _
  simp only [Except.bind, hend]
  rfl

/-! ## Reading a number back with `atoi` -/

theorem digits_getD_toNat : ∀ d < 10, (digits.getD d 0).toNat = 48 + d := by decide

/-- The decimal digits of `x`, most significant first, as `printint` prints
them: bytes `atoi` takes for digits, which read back as `x`. -/
theorem decimal_digits (x : Nat) :
    (∀ c ∈ ((digitsOf 10 x).map fun d => digits.getD d 0).reverse, isDigit c = true) ∧
      Nat.ofDigits 10 ((((digitsOf 10 x).map fun d => digits.getD d 0).reverse).reverse.map
        fun c => c.toNat - 48) = x := by
  have hlt : ∀ d ∈ digitsOf 10 x, d < 10 := fun d hd => lt_of_mem_digitsOf (by norm_num) hd
  refine ⟨fun c hc => ?_, ?_⟩
  · rw [List.mem_reverse, List.mem_map] at hc
    obtain ⟨d, hd, rfl⟩ := hc
    have hc := digits_getD_toNat d (hlt d hd)
    have hd10 := hlt d hd
    simp only [isDigit, Bool.and_eq_true, decide_eq_true_eq, UInt8.le_iff_toNat_le, hc]
    exact ⟨by simp, by simp; omega⟩
  · -- each byte is its digit's, `48` above it
    rw [List.reverse_reverse, List.map_map]
    have hback : (digitsOf 10 x).map ((fun c : UInt8 => c.toNat - 48) ∘ fun d => digits.getD d 0) =
        digitsOf 10 x := by
      conv_rhs => rw [← List.map_id (digitsOf 10 x)]
      apply List.map_congr_left
      intro d hd
      show (digits.getD d 0).toNat - 48 = d
      rw [digits_getD_toNat d (hlt d hd), Nat.add_sub_cancel_left]
    rw [hback, ofDigits_digitsOf]

/-- A non-negative `int` is the `uint` it converts to. -/
theorem ofNat_toUint {v : Int32} (hv : 0 ≤ v.toInt) : Int32.ofNat (toUint v.toInt) = v := by
  have hlt := Int32.toInt_lt v
  have hmod : v.toInt % 2 ^ 32 = v.toInt := Int.emod_eq_of_lt hv (by omega)
  rw [toUint, hmod, ← Int32.ofInt_eq_ofNat, Int.toNat_of_nonneg hv, Int32.ofInt_toInt]

/-- `atoi` reads back the number `printint(fd, v, 10, 1)` prints when `v` is
not negative; a negative one starts with `'-'`, where `atoi` stops with `0`. -/
theorem atoi_printint (v : Int32) {s : List UInt8} (hs : printint v 10 true = .ok s)
    {b : Bytes m} {i : Nat} (hb : b.slice i s.length = s) (hi : i + s.length < m)
    (hstop : isDigit (b.get (i + s.length)) = false) :
    atoi b i = .ok (if 0 ≤ v.toInt then v else 0) := by
  rw [printint_ok v (le_refl 10), Except.ok.injEq] at hs
  obtain ⟨hdig, hval⟩ := decimal_digits (magnitude v true).2
  by_cases hv : 0 ≤ v.toInt
  · -- no sign: the digits of the magnitude, which is `v`
    have hmag : magnitude v true = (false, toUint v.toInt) := by
      simp [magnitude, not_lt.mpr hv]
    rw [hmag] at hs hdig hval
    simp only [Bool.false_eq_true, if_false, List.nil_append] at hs
    subst hs
    have hrun := atoiLoop_digits _ hdig 0 hb hi hstop
    rw [Nat.zero_mul, Nat.zero_add, hval, ofNat_toUint hv] at hrun
    rw [atoi, if_pos hv]
    exact hrun
  · -- the `'-'` is not a digit
    have hmag : (magnitude v true).1 = true := by simp [magnitude, lt_of_not_ge hv]
    rw [hmag, if_pos rfl] at hs
    subst hs
    rw [List.cons_append, List.length_cons, Bytes.slice_succ, List.cons.injEq] at hb
    rw [atoi, atoiLoop, if_pos (by simp at hi; omega), hb.1, if_neg (by decide), if_neg hv]

/-- `7` printed into a buffer and read back. -/
theorem atoi_printint_seven :
    printint 7 10 true = .ok [55] ∧ atoi ((Bytes.zero : Bytes 2).setList 0 [55]) 0 = .ok 7 := by
  have h7 : printint 7 10 true = .ok [55] := by
    rw [printint_ok 7 (le_refl 10)]
    simp [magnitude, toUint, digitsOf, digits]
  exact ⟨h7, (atoi_printint 7 h7 (by decide) (by decide) (by decide)).trans (by decide)⟩

end Xv6.User
