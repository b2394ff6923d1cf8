import Mathlib.Data.Fin.Basic

/-!
# Byte buffers and little-endian fields

`Bytes n` is a buffer of `n` bytes. C code that casts a buffer to a struct
pointer reads and writes its fields in place; on a little-endian machine a
32-bit field at byte offset `o` is the four bytes `o .. o+3`, least
significant first. `getU32`/`setU32` are those accesses.

The two lemmas every decoder proof needs are here:

* `getU32_setU32_self` — a field reads back what was stored in it;
* `getU32_setU32_of_disjoint` — storing a field leaves every field that does
  not overlap it alone.
-/

namespace Xv6.Lib

/-- A buffer of `n` bytes. -/
abbrev Bytes (n : Nat) := Fin n → UInt8

namespace Bytes

variable {n : Nat}

/-- The byte at offset `i` (`0` past the end of the buffer). -/
def get (b : Bytes n) (i : Nat) : UInt8 := if h : i < n then b ⟨i, h⟩ else 0

/-- Store the byte `v` at offset `i` (no effect past the end). -/
def set (b : Bytes n) (i : Nat) (v : UInt8) : Bytes n :=
  fun j => if j.val = i then v else b j

/-- The all-zero buffer (`memset(b, 0, n)`). -/
def zero : Bytes n := fun _ => 0

@[simp] theorem get_set_self (b : Bytes n) {i : Nat} (h : i < n) (v : UInt8) :
    (b.set i v).get i = v := by
  simp [get, set, h]

@[simp] theorem get_set_of_ne (b : Bytes n) {i j : Nat} (h : i ≠ j) (v : UInt8) :
    (b.set i v).get j = b.get j := by
  unfold get set
  by_cases hj : j < n
  · simp [hj, Ne.symm h]
  · simp [hj]

theorem get_set (b : Bytes n) (i : Nat) (v : UInt8) (j : Nat) :
    (b.set i v).get j = if i = j ∧ j < n then v else b.get j := by
  by_cases hij : i = j
  · subst hij
    by_cases hi : i < n
    · simp [hi]
    · simp [get, hi]
  · simp [hij]

/-- Buffers with the same bytes are equal. -/
theorem ext_get {b b' : Bytes n} (h : ∀ i, b.get i = b'.get i) : b = b' := by
  funext j
  simpa [get, j.isLt] using h j.val

/-- Store the bytes `cs` from offset `o` on (`memmove(b + o, cs, len)`). -/
def setList (b : Bytes n) (o : Nat) : List UInt8 → Bytes n
  | [] => b
  | c :: cs => (b.set o c).setList (o + 1) cs

@[simp] theorem get_zero (i : Nat) : (zero : Bytes n).get i = 0 := by
  unfold get zero
  split <;> rfl

/-- The little-endian 32-bit word at byte offset `o`. -/
def getU32 (b : Bytes n) (o : Nat) : UInt32 :=
  UInt32.ofNat ((b.get o).toNat + 256 * (b.get (o + 1)).toNat +
    65536 * (b.get (o + 2)).toNat + 16777216 * (b.get (o + 3)).toNat)

@[simp] theorem getU32_zero (o : Nat) : (zero : Bytes n).getU32 o = 0 := by
  simp [getU32]

/-- Store `v` as a little-endian 32-bit word at byte offset `o`. -/
def setU32 (b : Bytes n) (o : Nat) (v : UInt32) : Bytes n :=
  (((b.set o (UInt8.ofNat v.toNat)).set (o + 1) (UInt8.ofNat (v.toNat / 256))).set
    (o + 2) (UInt8.ofNat (v.toNat / 65536))).set (o + 3) (UInt8.ofNat (v.toNat / 16777216))

/-- Bytes outside the four a word store writes are unchanged. -/
theorem get_setU32_of_lt_or_le (b : Bytes n) (o : Nat) (v : UInt32) {i : Nat}
    (h : i < o ∨ o + 4 ≤ i) : (b.setU32 o v).get i = b.get i := by
  unfold setU32
  rw [get_set_of_ne _ (by omega), get_set_of_ne _ (by omega), get_set_of_ne _ (by omega),
    get_set_of_ne _ (by omega)]

/-- A stored word reads back. -/
theorem getU32_setU32_self (b : Bytes n) {o : Nat} (h : o + 4 ≤ n) (v : UInt32) :
    (b.setU32 o v).getU32 o = v := by
  unfold getU32 setU32
  simp (disch := omega) only [get_set_self, get_set_of_ne]
  apply UInt32.toNat_inj.mp
  have hv := v.toNat_lt
  simp only [UInt8.toNat_ofNat', UInt32.toNat_ofNat']
  omega

/-- A second store to the same word replaces the first. -/
theorem setU32_setU32_self (b : Bytes n) (o : Nat) (v w : UInt32) :
    (b.setU32 o v).setU32 o w = b.setU32 o w := by
  apply ext_get
  intro i
  simp only [setU32, get_set]
  split_ifs <;> rfl

/-- Storing a word leaves every non-overlapping word alone. -/
theorem getU32_setU32_of_disjoint (b : Bytes n) {o o' : Nat} (h : o + 4 ≤ o' ∨ o' + 4 ≤ o)
    (v : UInt32) : (b.setU32 o v).getU32 o' = b.getU32 o' := by
  unfold getU32
  rw [get_setU32_of_lt_or_le _ _ _ (by omega), get_setU32_of_lt_or_le _ _ _ (by omega),
    get_setU32_of_lt_or_le _ _ _ (by omega), get_setU32_of_lt_or_le _ _ _ (by omega)]

end Bytes

end Xv6.Lib
