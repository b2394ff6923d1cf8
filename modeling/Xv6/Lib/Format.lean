import Mathlib.Data.Nat.Digits.Lemmas
import Xv6.Lib.Buffer

/-!
# Formatted output: variadic arguments and the digit loop

Two pieces of C that `printf`-like functions are made of.

* A `va_list` is the list of the arguments the caller passed, each with its C
  type (`Arg`). `va_arg(ap, int)`, `va_arg(ap, uint64)` and
  `va_arg(ap, char *)` take the next one, and fail when it has another type or
  there is none: the format and the arguments do not match.
* `digitLoop` is the loop `do buf[i++] = digits[x % base]; while ((x /= base) != 0);`
  over a checked buffer. `digitLoop_spec`: it writes `digitsOf base x`, the
  digits of `x` least significant first (those of `Nat.digits`, or a single
  `0`), from `i` on when they fit, and fails at the first byte past the buffer
  when they do not.
  `length_digitsOf` counts them from the powers of the base around `x`.
* `printDigits` is the body that the kernel's and the user's `printint`
  share: the digit loop into a 16-byte buffer, the sign, and the buffer read
  back. `printDigits_spec`: it prints the sign and the digits when they fit,
  and writes past the buffer when they do not.
-/

namespace Xv6.Lib

/-- An argument as the caller passes it: an `int`, a 64-bit integer, or a
string pointer, null or pointing at the bytes of a string. -/
inductive Arg
  | int (v : Int32)
  | u64 (v : UInt64)
  | str (s : Option (List UInt8))

/-- `va_arg(ap, int)`. -/
def vaInt : List Arg → Except String (Int32 × List Arg)
  | .int v :: ap => .ok (v, ap)
  | _ => .error "va_arg: the next argument is not an int"

/-- `va_arg(ap, uint64)`. -/
def vaU64 : List Arg → Except String (UInt64 × List Arg)
  | .u64 v :: ap => .ok (v, ap)
  | _ => .error "va_arg: the next argument is not a uint64"

/-- `va_arg(ap, char *)`. -/
def vaStr : List Arg → Except String (Option (List UInt8) × List Arg)
  | .str s :: ap => .ok (s, ap)
  | _ => .error "va_arg: the next argument is not a string"

/-! ## The digit loop -/

/-- The digits the loop writes for `x`, least significant first. -/
def digitsOf (base x : Nat) : List Nat := if x = 0 then [0] else Nat.digits base x

theorem digitsOf_of_div_ne_zero {base x : Nat} (hb : 2 ≤ base) (hx : x / base ≠ 0) :
    digitsOf base x = x % base :: digitsOf base (x / base) := by
  have hx0 : x ≠ 0 := fun h => hx (by rw [h, Nat.zero_div])
  rw [digitsOf, if_neg hx0, digitsOf, if_neg hx, Nat.digits_def' hb (Nat.pos_of_ne_zero hx0)]

theorem digitsOf_of_div_eq_zero {base x : Nat} (hb : 2 ≤ base) (hx : x / base = 0) :
    digitsOf base x = [x % base] := by
  have hlt : x < base := by
    rcases Nat.lt_or_ge x base with h | h
    · exact h
    · exact absurd hx (Nat.ne_of_gt (Nat.div_pos h (by omega)))
  rw [digitsOf, Nat.mod_eq_of_lt hlt]
  split_ifs with h0
  · rw [h0]
  · rw [Nat.digits_of_lt base x h0 hlt]

theorem digitsOf_ne_nil (base x : Nat) : digitsOf base x ≠ [] := by
  unfold digitsOf
  split_ifs with h0
  · exact List.cons_ne_nil 0 []
  · exact Nat.digits_ne_nil_iff_ne_zero.mpr h0

/-- The digits read back, least significant first, as the number. -/
theorem ofDigits_digitsOf (base x : Nat) :
    Nat.ofDigits base (digitsOf base x) = x := by
  unfold digitsOf
  split_ifs with h0
  · simp [h0]
  · exact Nat.ofDigits_digits base x

theorem lt_of_mem_digitsOf {base x d : Nat} (hb : 2 ≤ base) (hd : d ∈ digitsOf base x) : d < base := by
  unfold digitsOf at hd
  split_ifs at hd
  · rw [List.mem_singleton.mp hd]
    omega
  · exact Nat.digits_lt_base (by omega) hd

/-- `x` has `k + 1` digits when `base ^ k ≤ x < base ^ (k + 1)`. -/
theorem length_digitsOf {base x k : Nat} (hb : 2 ≤ base) (hlo : base ^ k ≤ x)
    (hhi : x < base ^ (k + 1)) : (digitsOf base x).length = k + 1 := by
  have hx : x ≠ 0 := Nat.pos_iff_ne_zero.mp (lt_of_lt_of_le (Nat.pow_pos (by omega)) hlo)
  rw [digitsOf, if_neg hx, Nat.length_digits base x hb hx,
    (Nat.log_eq_iff (Or.inr ⟨hb, hx⟩)).mpr ⟨hlo, hhi⟩]

variable {n : Nat}

/-- `do buf[i++] = tbl[x % base]; while ((x /= base) != 0);`, each store
checked as `Bytes.store` checks it. Returns the buffer and `i`. -/
def digitLoop (tbl : List UInt8) (buf : Bytes n) (base x i : Nat) : Except String (Bytes n × Nat) :=
  if i < n then
    if x / base ≠ 0 then digitLoop tbl (buf.set i (tbl.getD (x % base) 0)) base (x / base) (i + 1)
    else .ok (buf.set i (tbl.getD (x % base) 0), i + 1)
  else .error "write past the end of the buffer"
termination_by n - i

/-- The loop writes the digits of `x` from `i` on, or fails at the end of the
buffer when they do not fit. -/
theorem digitLoop_spec (tbl : List UInt8) {base : Nat} (hb : 2 ≤ base) (buf : Bytes n) (x i : Nat) :
    digitLoop tbl buf base x i =
      if i + (digitsOf base x).length ≤ n then
        .ok (buf.setList i ((digitsOf base x).map fun d => tbl.getD d 0), i + (digitsOf base x).length)
      else .error "write past the end of the buffer" := by
  fun_induction digitLoop tbl buf base x i with
  | case1 buf x i hi hx ih =>
    -- one digit here, the others from `i + 1` on
    rw [ih, digitsOf_of_div_ne_zero hb hx, List.length_cons, List.map_cons]
    simp only [Bytes.setList, show i + (List.length (digitsOf base (x / base)) + 1) =
      i + 1 + List.length (digitsOf base (x / base)) by omega]
  | case2 buf x i hi hx =>
    rw [digitsOf_of_div_eq_zero hb (not_not.mp hx), if_pos (by simp; omega)]
    rfl
  | case3 buf x i hi =>
    have := List.length_pos_iff.mpr (digitsOf_ne_nil base x)
    rw [if_neg (by omega)]

/-- The body of a `printint`: the digits of `x` from the table `tbl` into
`char buf[16]`, a `'-'` after them when `neg`, then
`while (--i >= 0) putc(buf[i]);`. -/
def printDigits (tbl : List UInt8) (base : Nat) (neg : Bool) (x : Nat) : Except String (List UInt8) := do
  let r ← digitLoop tbl (Bytes.zero : Bytes 16) base x 0
  let r ← if neg then do pure ((← r.1.store r.2 45), r.2 + 1) else pure r
  pure (r.1.slice 0 r.2).reverse

/-- `printDigits` prints the sign, then the digits of `x`, most significant
first, when they fit in `buf`; otherwise it writes past its end. -/
theorem printDigits_spec (tbl : List UInt8) {base : Nat} (hb : 2 ≤ base) (neg : Bool) (x : Nat) :
    printDigits tbl base neg x =
      if (digitsOf base x).length + (if neg then 1 else 0) ≤ 16 then
        .ok ((if neg then [45] else []) ++ ((digitsOf base x).map fun d => tbl.getD d 0).reverse)
      else .error "write past the end of the buffer" := by
  set ds := digitsOf base x with hds
  set cs := ds.map fun d => tbl.getD d 0 with hcs
  have hlen : cs.length = ds.length := List.length_map _
  unfold printDigits
  rw [digitLoop_spec tbl hb, ← hds, ← hcs, Nat.zero_add]
  by_cases hfit : ds.length ≤ 16
  · -- the digits fit: the loop leaves them in the first bytes of `buf`
    have hread : (Bytes.zero.setList 0 cs : Bytes 16).slice 0 ds.length = cs := by
      rw [← hlen]
      exact Bytes.slice_setList_self cs (by omega)
    rw [if_pos hfit]
    simp only [bind, Except.bind, pure, Except.pure]
    cases neg
    · -- no sign: the digits, read back from the last
      simp only [Bool.false_eq_true, if_false, Nat.add_zero, if_pos hfit, List.nil_append, hread]
    · by_cases hfit' : ds.length + 1 ≤ 16
      · -- the sign goes in after the last digit, and comes out first
        have hsign : ((Bytes.zero.setList 0 cs : Bytes 16).set ds.length 45).slice 0 (ds.length + 1) =
            cs ++ [45] := by
          rw [Bytes.slice_add, Bytes.slice_set_of_lt_or_le (by omega), hread, Nat.zero_add,
            Bytes.slice_succ, Bytes.get_set_self _ (by omega), Bytes.slice_zero]
        simp only [if_true, if_pos hfit', Bytes.store_of_lt (show ds.length < 16 by omega), hsign]
        simp
      · -- the sign falls one past the end of `buf`
        simp only [if_true, show ds.length = 16 by omega, Bytes.store, if_neg (lt_irrefl 16)]
        rw [if_neg (by omega)]
  · rw [if_neg hfit, if_neg (by split <;> omega)]
    rfl

/-- Without a sign, `printDigits` prints the digits of `x` when they fit. -/
theorem printDigits_unsigned (tbl : List UInt8) {base : Nat} (hb : 2 ≤ base) (x : Nat) :
    printDigits tbl base false x =
      if (digitsOf base x).length ≤ 16 then .ok ((digitsOf base x).map fun d => tbl.getD d 0).reverse
      else .error "write past the end of the buffer" := by
  rw [printDigits_spec tbl hb]
  simp only [Bool.false_eq_true, if_false, Nat.add_zero, List.nil_append]

/-- The loop of a `printptr`:
`for (i = 0; i < sizeof(uint64) * 2; i++, x <<= 4) putc(digits[x >> (sizeof(uint64) * 8 - 4)]);`,
`k` hexadecimal digits of `x` from the top, from the table `tbl`. -/
def hexDigits (tbl : List UInt8) : Nat → UInt64 → List UInt8
  | 0, _ => []
  | k + 1, x => tbl.getD (x >>> 60).toNat 0 :: hexDigits tbl k (x <<< 4)

end Xv6.Lib
