import Mathlib.Data.Nat.Init
import Mathlib.Order.Basic
import Mathlib.Algebra.Group.Nat.Defs

/-!
# Byte-addressed memory

Physical memory maps each address to a byte. Every store a program makes is a
`write` of `n` bytes from an address, given by offset (`memset` is a constant
one, `memmove` from a buffer another, and a 64-bit store the eight bytes of
its value, least significant first). `load64` reads a little-endian word back.

The lemmas later proofs use are:

* `write_apply` — a byte after a write;
* `load64_congr` — a word depends on its eight bytes only, so a write that
  misses them leaves it alone (`load64_write_of_disjoint`);
* `load64_store64` — a stored word reads back.
-/

namespace Xv6.Lib

/-- Memory: address ↦ byte. -/
abbrev Mem := Nat → UInt8

namespace Mem

/-- Store `n` bytes from address `a`, byte `i` of them being `f i`. -/
def write (m : Mem) (a n : Nat) (f : Nat → UInt8) : Mem :=
  fun x => if a ≤ x ∧ x < a + n then f (x - a) else m x

/-- `memset(a, v, n)`. -/
def memset (m : Mem) (a : Nat) (v : UInt8) (n : Nat) : Mem := m.write a n fun _ => v

/-- The bytes of a 64-bit value, least significant first. -/
def bytes64 (v : UInt64) (i : Nat) : UInt8 := UInt8.ofNat (v.toNat / 256 ^ i)

/-- `*(uint64 *)a = v` on a little-endian machine. -/
def store64 (m : Mem) (a : Nat) (v : UInt64) : Mem := m.write a 8 (bytes64 v)

/-- The number the `n` bytes from `a` spell, least significant first. -/
def leNat (m : Mem) : Nat → Nat → Nat
  | _, 0 => 0
  | a, n + 1 => (m a).toNat + 256 * leNat m (a + 1) n

/-- `*(uint64 *)a`. -/
def load64 (m : Mem) (a : Nat) : UInt64 := UInt64.ofNat (m.leNat a 8)

theorem write_apply (m : Mem) (a n : Nat) (f : Nat → UInt8) (x : Nat) :
    m.write a n f x = if a ≤ x ∧ x < a + n then f (x - a) else m x := rfl

theorem write_of_disjoint (m : Mem) {a n x : Nat} (f : Nat → UInt8) (h : x < a ∨ a + n ≤ x) :
    m.write a n f x = m x := by
  rw [write_apply, if_neg (by omega)]

theorem write_of_mem (m : Mem) {a n x : Nat} (f : Nat → UInt8) (h₁ : a ≤ x) (h₂ : x < a + n) :
    m.write a n f x = f (x - a) := by
  rw [write_apply, if_pos ⟨h₁, h₂⟩]

theorem leNat_congr {m m' : Mem} {a n : Nat} (h : ∀ i < n, m (a + i) = m' (a + i)) :
    m.leNat a n = m'.leNat a n := by
  induction n generalizing a with
  | zero => rfl
  | succ n ih =>
    have h₀ := h 0 (Nat.succ_pos n)
    rw [Nat.add_zero] at h₀
    have hrest : ∀ i < n, m (a + 1 + i) = m' (a + 1 + i) := fun i hi => by
      rw [Nat.add_assoc, Nat.add_comm 1 i]
      exact h (i + 1) (by omega)
    rw [leNat, leNat, h₀, ih hrest]

/-- A word depends on its eight bytes only. -/
theorem load64_congr {m m' : Mem} {a : Nat} (h : ∀ i < 8, m (a + i) = m' (a + i)) :
    m.load64 a = m'.load64 a := by
  unfold load64
  rw [leNat_congr h]

/-- A write that misses a word's bytes leaves the word alone. -/
theorem load64_write_of_disjoint (m : Mem) {a n b : Nat} (f : Nat → UInt8)
    (h : a + n ≤ b ∨ b + 8 ≤ a) : (m.write a n f).load64 b = m.load64 b :=
  load64_congr fun i hi => m.write_of_disjoint f (by omega)

/-- `n` bytes holding the digits of `v` in base 256 spell `v % 256 ^ n`. -/
theorem leNat_of_digits {m : Mem} {a v : Nat} :
    ∀ n, (∀ i < n, m (a + i) = UInt8.ofNat (v / 256 ^ i)) → m.leNat a n = v % 256 ^ n
  | 0, _ => by rw [leNat, Nat.pow_zero, Nat.mod_one]
  | n + 1, h => by
    have h₀ := h 0 (Nat.succ_pos n)
    rw [Nat.add_zero, Nat.pow_zero, Nat.div_one] at h₀
    -- the remaining bytes are the digits of `v / 256`
    have hrest : ∀ i < n, m (a + 1 + i) = UInt8.ofNat (v / 256 / 256 ^ i) := fun i hi => by
      rw [Nat.add_assoc, Nat.add_comm 1 i, Nat.div_div_eq_div_mul, ← Nat.pow_succ']
      exact h (i + 1) (by omega)
    have hlow : (UInt8.ofNat v).toNat = v % 256 := UInt8.toNat_ofNat'
    rw [leNat, leNat_of_digits n hrest, h₀, hlow, Nat.pow_succ', Nat.mod_mul]

@[simp] theorem load64_store64 (m : Mem) (a : Nat) (v : UInt64) : (m.store64 a v).load64 a = v := by
  have hbytes : ∀ i < 8, m.store64 a v (a + i) = UInt8.ofNat (v.toNat / 256 ^ i) := fun i hi => by
    rw [store64, m.write_of_mem _ (Nat.le_add_right a i) (by omega), Nat.add_sub_cancel_left]
    rfl
  unfold load64
  rw [leNat_of_digits 8 hbytes]
  apply UInt64.toNat_inj.mp
  rw [UInt64.toNat_ofNat', Nat.mod_mod_of_dvd _ (by decide), Nat.mod_eq_of_lt v.toNat_lt]

end Mem

end Xv6.Lib
