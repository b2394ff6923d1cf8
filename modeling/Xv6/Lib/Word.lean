import Mathlib.Data.Nat.Bitwise

/-!
# Bit fields of 64-bit words

C packs fields side by side in a word: a high field shifted left past a low
field of `k` bits. These lemmas turn the idioms for such fields into
arithmetic on `toNat`:

* `toNat_or_of_low` — `hi | lo` is `hi + lo` when `lo` fits below the bits of
  `hi`;
* `toNat_and_low` — `x & (2^k - 1)` is `x % 2^k`;
* `toNat_and_not_low` — `x & ~(2^k - 1)` is `x` rounded down to a multiple of
  `2^k`.
-/

namespace Xv6.Lib

/-- Clearing the low `k` bits of a number of `w` bits. -/
theorem and_two_pow_sub_low {x k w : Nat} (hk : k ≤ w) (hx : x < 2 ^ w) :
    x &&& (2 ^ w - (2 ^ k - 1 + 1)) = x >>> k <<< k := by
  have hlow : 2 ^ k - 1 < 2 ^ w := by
    have := Nat.pow_le_pow_right (show 0 < 2 by omega) hk
    omega
  apply Nat.eq_of_testBit_eq
  intro j
  rw [Nat.testBit_and, Nat.testBit_two_pow_sub_succ hlow, Nat.testBit_two_pow_sub_one,
    Nat.testBit_shiftLeft, Nat.testBit_shiftRight]
  by_cases hj : j < k
  · simp [hj]
  -- above the low bits: `x`'s own bits, and none at or past `w`
  have hjk : k + (j - k) = j := by omega
  by_cases hw : j < w
  · simp [hj, hw, hjk]
    omega
  · have hx' : x.testBit j = false :=
      Nat.testBit_lt_two_pow (lt_of_lt_of_le hx (Nat.pow_le_pow_right (by omega) (by omega)))
    simp [hw, hjk, hx']

variable {k : Nat}

theorem toNat_or_of_low {x y : UInt64} (hx : x.toNat % 2 ^ k = 0) (hy : y.toNat < 2 ^ k) :
    (x ||| y).toNat = x.toNat + y.toNat := by
  obtain ⟨q, hq⟩ : ∃ q, x.toNat = 2 ^ k * q :=
    ⟨x.toNat / 2 ^ k, (Nat.mul_div_cancel' (Nat.dvd_of_mod_eq_zero hx)).symm⟩
  rw [UInt64.toNat_or, hq, Nat.two_pow_add_eq_or_of_lt hy]

theorem toNat_and_low (x : UInt64) {m : UInt64} (hm : m.toNat = 2 ^ k - 1) :
    (x &&& m).toNat = x.toNat % 2 ^ k := by
  rw [UInt64.toNat_and, hm, Nat.and_two_pow_sub_one_eq_mod]

theorem toNat_and_not_low (x : UInt64) {m : UInt64} (hm : m.toNat = 2 ^ k - 1) (hk : k ≤ 64) :
    (x &&& ~~~m).toNat = x.toNat / 2 ^ k * 2 ^ k := by
  have hnot : (~~~m).toNat = 2 ^ 64 - (2 ^ k - 1 + 1) := by
    rw [UInt64.toNat_not, hm, show UInt64.size = 2 ^ 64 from rfl]
    omega
  rw [UInt64.toNat_and, hnot, and_two_pow_sub_low hk x.toNat_lt, Nat.shiftLeft_eq,
    Nat.shiftRight_eq_div_pow]

end Xv6.Lib
