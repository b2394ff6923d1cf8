import Xv6.Lib.Format
import Mathlib.Tactic.NormNum

/-!
# The kernel's `printf` (`kernel/printf.c`)

`printf` walks its format and sends characters to `consputc`; the model
returns them as a list. The format is a buffer read through checked accesses,
so a read past its end is an error, and the arguments are the `va_list` of
`Xv6.Lib.Format`. The lock `pr.lock` only keeps the output of concurrent calls
apart and is left out.

Every integer conversion goes through `printint(long long xx, int base, int sign)`:
an `int` argument is widened to `long long` with its sign, a `uint64` is
reinterpreted as one. The magnitude `x` is an `unsigned long long`, so for
`%u` and `%x` a negative `int` prints as the 64-bit value
`2^64 + xx`, and the digit loop writes into `char buf[16]`.

* `printint` is `printDigits` of `Xv6.Lib.Format` on the magnitude: it prints
  the sign and the digits when they fit in 16 bytes, and otherwise writes past
  `buf` (`printDigits_spec`). `printIntArg_u_of_neg`: `%u` of any negative
  `int` writes past `buf`; `printIntArg_x_of_neg`: `%x` of any negative `int`
  prints sixteen digits.
* `printf_u_overflows`: `printf("%u", -1)` writes past the end of `buf`: the
  magnitude `2^64 - 1` has 20 decimal digits.
* `printf_x_sign_extends`: `printf("%x", -1)` prints sixteen `f`s, not the
  eight of `-1` as an `unsigned int`.
-/

namespace Xv6.Kernel

open Xv6.Lib

/-- `digits[] = "0123456789abcdef"`. -/
def digits : List UInt8 := [48, 49, 50, 51, 52, 53, 54, 55, 56, 57, 97, 98, 99, 100, 101, 102]

/-- A `long long` as the `unsigned long long` it converts to. -/
def toULL (v : Int) : Nat := (v % 2 ^ 64).toNat

/-- A `uint64` as the `long long` it converts to. -/
def toLL (v : UInt64) : Int := if v.toNat < 2 ^ 63 then v.toNat else (v.toNat : Int) - 2 ^ 64

/-- `if (sign && (sign = (xx < 0))) x = -xx; else x = xx;`: whether the sign
is printed, and the magnitude. `-xx` wraps for the least `long long`, as the
machine does. -/
def magnitude (xx : Int) (sign : Bool) : Bool × Nat :=
  if sign && decide (xx < 0) then (true, toULL (-xx)) else (false, toULL xx)

/-- `printint(xx, base, sign)`: the digit loop into `char buf[16]`, the sign,
then `while (--i >= 0) consputc(buf[i]);`. -/
def printint (xx : Int) (base : Nat) (sign : Bool) : Except String (List UInt8) :=
  printDigits digits base (magnitude xx sign).1 (magnitude xx sign).2

/-- `printptr(x)`: `0x`, then sixteen hexadecimal digits. -/
def printptr (x : UInt64) : List UInt8 := 48 :: 120 :: hexDigits digits 16 x

/-- `printint(va_arg(ap, int), base, sign)`. -/
def printIntArg (ap : List Arg) (base : Nat) (sign : Bool) : Except String (List UInt8 × List Arg) := do
  let (v, ap) ← vaInt ap
  pure (← printint v.toInt base sign, ap)

/-- `printint(va_arg(ap, uint64), base, sign)`. -/
def printU64Arg (ap : List Arg) (base : Nat) (sign : Bool) : Except String (List UInt8 × List Arg) := do
  let (v, ap) ← vaU64 ap
  pure (← printint (toLL v) base sign, ap)

/-- `"(null)"`. -/
def nullString : List UInt8 := [40, 110, 117, 108, 108, 41]

/-- The `if`-chain after a `%`, on `c0 = fmt[i]` and the look-ahead `c1` and
`c2`: the characters printed, the arguments left, and how many more format
bytes the conversion takes (`i += 1`, `i += 2`); `none` for a `%` at the end
of the format (`break`). -/
def convert (c0 c1 c2 : UInt8) (ap : List Arg) :
    Except String (Option (List UInt8 × List Arg × Nat)) :=
  -- 'd', 'l', 'u', 'x', 'p', 's', '%'
  if c0 = 100 then (fun r => some (r.1, r.2, 0)) <$> printIntArg ap 10 true
  else if c0 = 108 ∧ c1 = 100 then (fun r => some (r.1, r.2, 1)) <$> printU64Arg ap 10 true
  else if c0 = 108 ∧ c1 = 108 ∧ c2 = 100 then (fun r => some (r.1, r.2, 2)) <$> printU64Arg ap 10 true
  else if c0 = 117 then (fun r => some (r.1, r.2, 0)) <$> printIntArg ap 10 false
  else if c0 = 108 ∧ c1 = 117 then (fun r => some (r.1, r.2, 1)) <$> printU64Arg ap 10 false
  else if c0 = 108 ∧ c1 = 108 ∧ c2 = 117 then (fun r => some (r.1, r.2, 2)) <$> printU64Arg ap 10 false
  else if c0 = 120 then (fun r => some (r.1, r.2, 0)) <$> printIntArg ap 16 false
  else if c0 = 108 ∧ c1 = 120 then (fun r => some (r.1, r.2, 1)) <$> printU64Arg ap 16 false
  else if c0 = 108 ∧ c1 = 108 ∧ c2 = 120 then (fun r => some (r.1, r.2, 2)) <$> printU64Arg ap 16 false
  else if c0 = 112 then (fun r => some (printptr r.1, r.2, 0)) <$> vaU64 ap
  else if c0 = 115 then (fun r => some (r.1.getD nullString, r.2, 0)) <$> vaStr ap
  else if c0 = 37 then .ok (some ([37], ap, 0))
  else if c0 = 0 then .ok none
  -- an unknown `%` sequence is printed as it stands
  else .ok (some ([37, c0], ap, 0))

variable {m : Nat}

/-- The bytes after the `%` at `fmt[i]`: `c0`, then `c1` only when `c0` is
not NUL and `c2` only when `c1` is not (`if(c0) c1 = fmt[i+1] & 0xff;`). -/
def lookahead (fmt : Bytes m) (i : Nat) : Except String (UInt8 × UInt8 × UInt8) := do
  let c0 ← fmt.load (i + 1)
  let c1 ← if c0 ≠ 0 then fmt.load (i + 2) else pure 0
  let c2 ← if c1 ≠ 0 then fmt.load (i + 3) else pure 0
  pure (c0, c1, c2)

/-- The loop of `printf` from `fmt[i]`, with the arguments `ap` not yet
taken: the characters it prints. `fmt[i]` is read as `Bytes.load` reads it. -/
def printfLoop (fmt : Bytes m) (i : Nat) (ap : List Arg) : Except String (List UInt8) :=
  if i < m then
    if fmt.get i = 0 then .ok []
    else if fmt.get i ≠ 37 then (fmt.get i :: ·) <$> printfLoop fmt (i + 1) ap
    else do
      let (c0, c1, c2) ← lookahead fmt i
      match ← convert c0 c1 c2 ap with
      | none => .ok []
      | some (s, ap, k) => (s ++ ·) <$> printfLoop fmt (i + 2 + k) ap
  else .error "read past the end of the buffer"
termination_by m - i

/-- `printf(fmt, ...)`. -/
def printf (fmt : Bytes m) (ap : List Arg) : Except String (List UInt8) := printfLoop fmt 0 ap

/-! ## `printint` -/

@[simp] theorem magnitude_false (xx : Int) : magnitude xx false = (false, toULL xx) := rfl

/-- An `int` conversion prints its argument and leaves the ones after it. -/
theorem printIntArg_int (v : Int32) (ap : List Arg) (base : Nat) (sign : Bool) :
    printIntArg (.int v :: ap) base sign = (·, ap) <$> printint v.toInt base sign := by
  simp only [printIntArg, vaInt, bind, Except.bind]
  cases printint v.toInt base sign <;> rfl

/-- Unsigned, `printint` prints the digits of `toULL xx` when they fit. -/
theorem printint_unsigned (xx : Int) {base : Nat} (hb : 2 ≤ base) :
    printint xx base false =
      if (digitsOf base (toULL xx)).length ≤ 16 then
        .ok ((digitsOf base (toULL xx)).map fun d => digits.getD d 0).reverse
      else .error "write past the end of the buffer" := by
  rw [printint, magnitude_false, printDigits_unsigned digits hb]

/-- A negative `int` widened with its sign and read as an `unsigned long
long`: `2^64 + v`, at least `2^64 - 2^31`. -/
theorem toULL_of_neg {v : Int32} (hv : v.toInt < 0) :
    2 ^ 64 - 2 ^ 31 ≤ toULL v.toInt ∧ toULL v.toInt < 2 ^ 64 := by
  have hlo := Int32.le_toInt v
  unfold toULL
  omega

/-- `%u` of a negative `int` writes past `buf`: widened with its sign, the
magnitude is at least `2^64 - 2^31`, which has twenty decimal digits. -/
theorem printIntArg_u_of_neg {v : Int32} (hv : v.toInt < 0) (ap : List Arg) :
    printIntArg (.int v :: ap) 10 false = .error "write past the end of the buffer" := by
  have hx : 10 ^ 19 ≤ toULL v.toInt ∧ toULL v.toInt < 10 ^ (19 + 1) := by
    have := toULL_of_neg hv
    omega
  have hlen := length_digitsOf (by norm_num) hx.1 hx.2
  rw [printIntArg_int, printint_unsigned _ (by norm_num), if_neg (by omega)]
  rfl

/-- `%x` of a negative `int` prints sixteen hexadecimal digits, those of
`2^64 + v`; the `unsigned int` it stands for has at most eight. -/
theorem printIntArg_x_of_neg {v : Int32} (hv : v.toInt < 0) (ap : List Arg) :
    printIntArg (.int v :: ap) 16 false =
      .ok (((digitsOf 16 (toULL v.toInt)).map fun d => digits.getD d 0).reverse, ap) ∧
    (digitsOf 16 (toULL v.toInt)).length = 16 := by
  have hx : 16 ^ 15 ≤ toULL v.toInt ∧ toULL v.toInt < 16 ^ (15 + 1) := by
    have := toULL_of_neg hv
    omega
  have hlen := length_digitsOf (by norm_num) hx.1 hx.2
  rw [printIntArg_int, printint_unsigned _ (by norm_num), if_pos (by omega)]
  exact ⟨rfl, hlen⟩

/-! ## One step of `printf` -/

section Step

variable {fmt : Bytes m} {i : Nat} {ap : List Arg}

theorem printfLoop_nul (hi : i < m) (h : fmt.get i = 0) : printfLoop fmt i ap = .ok [] := by
  rw [printfLoop, if_pos hi, if_pos h]

/-- A `%` whose conversion byte and look-ahead read as `c0`, `c1` and `c2`:
`printf` prints the conversion and goes on after it. -/
theorem printfLoop_percent (hi : i < m) (h : fmt.get i = 37) {c0 c1 c2 : UInt8}
    (hl : lookahead fmt i = .ok (c0, c1, c2)) :
    printfLoop fmt i ap = (convert c0 c1 c2 ap).bind fun
      | none => .ok []
      | some (s, ap, k) => (s ++ ·) <$> printfLoop fmt (i + 2 + k) ap := by
  rw [printfLoop, if_pos hi, if_neg (by rw [h]; decide), if_neg (not_not.mpr h)]
  simp only [bind, Except.bind, hl]

end Step

/-- `printf("%u", -1)`. -/
theorem printf_u_overflows :
    printf ((Bytes.zero : Bytes 3).setList 0 [37, 117, 0]) [.int (-1)] =
      .error "write past the end of the buffer" := by
  have hl : lookahead ((Bytes.zero : Bytes 3).setList 0 [37, 117, 0]) 0 = .ok (117, 0, 0) := by
    decide
  have hconv : convert 117 0 0 [.int (-1)] = .error "write past the end of the buffer" := by
    rw [convert, if_neg (by decide), if_neg (by decide), if_neg (by decide), if_pos rfl,
      printIntArg_u_of_neg (by decide)]
    rfl
  rw [printf, printfLoop_percent (by decide) (by decide) hl, hconv]
  rfl

/-- `printf("%x", -1)`. -/
theorem printf_x_sign_extends :
    printf ((Bytes.zero : Bytes 3).setList 0 [37, 120, 0]) [.int (-1)] =
      .ok (List.replicate 16 102) := by
  have hl : lookahead ((Bytes.zero : Bytes 3).setList 0 [37, 120, 0]) 0 = .ok (120, 0, 0) := by
    decide
  -- `-1` widens to `2^64 - 1`, sixteen hexadecimal `f`s
  have hdig : digitsOf 16 (toULL (-1 : Int32).toInt) = List.replicate 16 15 := by
    rw [show (-1 : Int32).toInt = -1 by decide]
    norm_num [digitsOf, toULL]
    rfl
  have hconv : convert 120 0 0 [.int (-1)] = .ok (some (List.replicate 16 102, [], 0)) := by
    rw [convert, if_neg (by decide), if_neg (by decide), if_neg (by decide), if_neg (by decide),
      if_neg (by decide), if_neg (by decide), if_pos rfl, (printIntArg_x_of_neg (by decide) []).1, hdig]
    rfl
  rw [printf, printfLoop_percent (by decide) (by decide) hl, hconv]
  have hend : printfLoop ((Bytes.zero : Bytes 3).setList 0 [37, 120, 0]) 2 [] = .ok [] :=
    printfLoop_nul (by decide) (by decide)
  simp only [Except.bind, Nat.add_zero, hend]
  rfl

end Xv6.Kernel
