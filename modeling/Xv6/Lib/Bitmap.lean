import Mathlib.Data.Nat.Bitwise
import Xv6.Lib.Bytes

/-!
# Bitmaps kept in byte buffers

C code keeps a bitmap as bytes and addresses bit `i` as bit `i % 8` of byte
`i / 8`, through the mask `1 << (i % 8)`: `data[i/8] & m` tests it,
`data[i/8] |= m` sets it, `data[i/8] &= ~m` clears it. The lemmas say what a
test reads after a set or a clear, for bits inside the buffer:

* `testBit_setBit` — setting bit `i` sets it and no other;
* `testBit_clearBit` — clearing bit `i` clears it and no other.
-/

namespace Xv6.Lib

namespace Bytes

variable {n : Nat}

/-- `1 << (i % 8)`. -/
def mask (i : Nat) : UInt8 := 1 <<< UInt8.ofNat (i % 8)

/-- `data[i / 8] & (1 << (i % 8))`, as a truth value. -/
def testBit (b : Bytes n) (i : Nat) : Bool := (b.get (i / 8) &&& mask i) != 0

/-- `data[i / 8] |= 1 << (i % 8)`. -/
def setBit (b : Bytes n) (i : Nat) : Bytes n := b.set (i / 8) (b.get (i / 8) ||| mask i)

/-- `data[i / 8] &= ~(1 << (i % 8))`. -/
def clearBit (b : Bytes n) (i : Nat) : Bytes n := b.set (i / 8) (b.get (i / 8) &&& ~~~mask i)

theorem toNat_mask (i : Nat) : (mask i).toNat = 2 ^ (i % 8) := by
  have hshift : ∀ k < 8, ((1 : UInt8) <<< UInt8.ofNat k).toNat = 2 ^ k := by decide
  exact hshift (i % 8) (Nat.mod_lt _ (by decide))

/-- The test reads bit `i % 8` of the byte. -/
theorem and_mask_bne_zero (x : UInt8) (i : Nat) :
    ((x &&& mask i) != 0) = x.toBitVec.getLsbD (i % 8) := by
  have hand : (x &&& mask i).toNat = (x.toNat.testBit (i % 8)).toNat * 2 ^ (i % 8) := by
    rw [UInt8.toNat_and, toNat_mask, Nat.and_two_pow]
  rw [← BitVec.testBit_toNat]
  show _ = x.toNat.testBit (i % 8)
  cases hb : x.toNat.testBit (i % 8)
  · have hz : x &&& mask i = 0 := UInt8.toNat_inj.mp (by rw [hand, hb]; simp)
    rw [hz]
    rfl
  · have hnz : x &&& mask i ≠ 0 := fun hz => by
      have h := congrArg UInt8.toNat hz
      rw [hand, hb] at h
      simp at h
    simpa using hnz

theorem getLsbD_or_mask (x : UInt8) (i j : Nat) (hj : j < 8) :
    (x ||| mask i).toBitVec.getLsbD j = (decide (i % 8 = j) || x.toBitVec.getLsbD j) := by
  have hi : i % 8 < 8 := Nat.mod_lt _ (by decide)
  simp [mask, Nat.mod_eq_of_lt hi, hj]
  by_cases h : i % 8 = j
  · subst h
    simp
  · simp [h]
    omega

theorem getLsbD_and_not_mask (x : UInt8) (i j : Nat) (hj : j < 8) :
    (x &&& ~~~mask i).toBitVec.getLsbD j = (decide (i % 8 ≠ j) && x.toBitVec.getLsbD j) := by
  have hi : i % 8 < 8 := Nat.mod_lt _ (by decide)
  simp [mask, Nat.mod_eq_of_lt hi, hj]
  by_cases h : i % 8 = j
  · subst h
    simp
  · simp [h]
    omega

/-- Bits `i` and `j` are the same bit iff they share a byte and a place in it. -/
theorem eq_iff_div_mod (i j : Nat) : i = j ↔ i / 8 = j / 8 ∧ i % 8 = j % 8 := by
  constructor
  · rintro rfl
    exact ⟨rfl, rfl⟩
  · rintro ⟨hd, hm⟩
    omega

theorem testBit_setBit (b : Bytes n) {i j : Nat} (hi : i < 8 * n) :
    (b.setBit i).testBit j = (decide (i = j) || b.testBit j) := by
  unfold testBit setBit
  by_cases hb : i / 8 = j / 8
  · rw [← hb, get_set_self _ (by omega), and_mask_bne_zero, and_mask_bne_zero,
      getLsbD_or_mask _ _ _ (Nat.mod_lt _ (by decide))]
    simp only [eq_iff_div_mod i j, hb, true_and]
  · rw [get_set_of_ne _ hb]
    have hij : i ≠ j := fun h => hb (h ▸ rfl)
    simp [hij]

theorem testBit_clearBit (b : Bytes n) {i j : Nat} (hi : i < 8 * n) :
    (b.clearBit i).testBit j = (decide (i ≠ j) && b.testBit j) := by
  unfold testBit clearBit
  by_cases hb : i / 8 = j / 8
  · rw [← hb, get_set_self _ (by omega), and_mask_bne_zero, and_mask_bne_zero,
      getLsbD_and_not_mask _ _ _ (Nat.mod_lt _ (by decide))]
    simp only [ne_eq, eq_iff_div_mod i j, hb, true_and]
  · rw [get_set_of_ne _ hb]
    have hij : i ≠ j := fun h => hb (h ▸ rfl)
    simp [hij]

@[simp] theorem testBit_zero (i : Nat) : (zero : Bytes n).testBit i = false := by
  simp [testBit]

end Bytes

end Xv6.Lib
