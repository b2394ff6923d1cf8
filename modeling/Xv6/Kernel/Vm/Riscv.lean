import Xv6.Lib.Mem
import Xv6.Lib.Word

/-!
# Sv39 page-table entries and the physical memory layout

`riscv.h` and `memlayout.h`. A virtual address below `MAXVA` splits into
three 9-bit indices `PX(2, va)`, `PX(1, va)`, `PX(0, va)` and a 12-bit
offset. A page-table entry holds a physical page number above ten flag bits:
`PA2PTE` moves a page-aligned physical address into place, `PTE2PA` moves it
back, `PTE_FLAGS` keeps the flags.

An entry `PA2PTE(pa) | f` with `f` below `2^10` gives back `pa` (when
page-aligned) and `f` (`pte2pa_mk`, `pteFlags_mk`), and a test of a flag bit
reads `f` alone (`and_mk`).
-/

namespace Xv6.Kernel

open Xv6.Lib

/-- `PGSIZE`: bytes per page. -/
def pgsize : UInt64 := 4096

/-- `PTE_V`, `PTE_R`, `PTE_W`, `PTE_X`, `PTE_U`. -/
def pteV : UInt64 := (1 : UInt64) <<< 0
def pteR : UInt64 := (1 : UInt64) <<< 1
def pteW : UInt64 := (1 : UInt64) <<< 2
def pteX : UInt64 := (1 : UInt64) <<< 3
def pteU : UInt64 := (1 : UInt64) <<< 4

/-- `PA2PTE(pa)`: shift a physical address to the physical page number. -/
def pa2pte (pa : UInt64) : UInt64 := (pa >>> 12) <<< 10

/-- `PTE2PA(pte)`. -/
def pte2pa (pte : UInt64) : UInt64 := (pte >>> 10) <<< 12

/-- `PTE_FLAGS(pte)`. -/
def pteFlags (pte : UInt64) : UInt64 := pte &&& 0x3FF

/-- `PXMASK`. -/
def pxmask : UInt64 := 0x1FF

/-- `PXSHIFT(level)`. -/
def pxshift (level : Nat) : UInt64 := 12 + 9 * UInt64.ofNat level

/-- `PX(level, va)`: the index of `va` in a page-table page of that level. -/
def px (level : Nat) (va : UInt64) : Nat := ((va >>> pxshift level) &&& pxmask).toNat

/-- `MAXVA`: one bit less than Sv39 allows, so no address needs sign extension. -/
def maxva : UInt64 := (1 : UInt64) <<< (9 + 9 + 9 + 12 - 1)

/-- `PGROUNDUP(sz)`. -/
def pgroundup (sz : UInt64) : UInt64 := (sz + pgsize - 1) &&& ~~~(pgsize - 1)

/-- `PGROUNDDOWN(a)`. -/
def pgrounddown (a : UInt64) : UInt64 := a &&& ~~~(pgsize - 1)

/-- `KERNBASE` and `PHYSTOP`: the RAM the kernel hands out lies below `PHYSTOP`. -/
def kernbase : Nat := 0x80000000
def phystop : Nat := kernbase + 128 * 1024 * 1024

/-- `TRAMPOLINE` and `TRAPFRAME`, the two top pages of every user address space. -/
def trampoline : UInt64 := maxva - pgsize
def trapframe : UInt64 := trampoline - pgsize

/-- `*pte & PTE_V`. -/
def PteValid (e : UInt64) : Prop := e &&& pteV ≠ 0

instance : DecidablePred PteValid := fun e => inferInstanceAs (Decidable (e &&& pteV ≠ 0))

@[simp] theorem pgsize_toNat : pgsize.toNat = 4096 := rfl

@[simp] theorem maxva_toNat : maxva.toNat = 2 ^ 38 := rfl

theorem pa2pte_toNat (pa : UInt64) : (pa2pte pa).toNat = pa.toNat / 4096 * 1024 := by
  have hpa := pa.toNat_lt
  unfold pa2pte
  rw [UInt64.toNat_shiftLeft, UInt64.toNat_shiftRight, Nat.shiftLeft_eq, Nat.shiftRight_eq_div_pow]
  show pa.toNat / 2 ^ 12 * 2 ^ 10 % 2 ^ 64 = _
  rw [Nat.mod_eq_of_lt (by omega)]

theorem pte2pa_toNat (e : UInt64) : (pte2pa e).toNat = e.toNat / 1024 * 4096 % 2 ^ 64 := by
  unfold pte2pa
  rw [UInt64.toNat_shiftLeft, UInt64.toNat_shiftRight, Nat.shiftLeft_eq, Nat.shiftRight_eq_div_pow]
  rfl

/-- Every address `PTE2PA` gives is page-aligned. -/
theorem pte2pa_aligned (e : UInt64) : (pte2pa e).toNat % 4096 = 0 := by
  rw [pte2pa_toNat]
  omega

theorem pteFlags_toNat (e : UInt64) : (pteFlags e).toNat = e.toNat % 1024 :=
  toNat_and_low e (k := 10) rfl

theorem px_toNat (level : Nat) (hl : level ≤ 2) (va : UInt64) :
    px level va = va.toNat / 2 ^ (12 + 9 * level) % 512 := by
  have hshift : (pxshift level).toNat % 64 = 12 + 9 * level := by
    obtain rfl | rfl | rfl : level = 0 ∨ level = 1 ∨ level = 2 := by omega
    all_goals rfl
  unfold px
  rw [toNat_and_low _ (k := 9) rfl, UInt64.toNat_shiftRight, hshift, Nat.shiftRight_eq_div_pow]
  rfl

theorem px_lt (level : Nat) (va : UInt64) : px level va < 512 := by
  have := toNat_and_low (va >>> pxshift level) (k := 9) (show pxmask.toNat = 2 ^ 9 - 1 from rfl)
  unfold px
  omega

theorem pgrounddown_toNat (a : UInt64) : (pgrounddown a).toNat = a.toNat / 4096 * 4096 :=
  toNat_and_not_low a (k := 12) rfl (by omega)

theorem pgroundup_toNat {a : UInt64} (h : a.toNat + 4095 < 2 ^ 64) :
    (pgroundup a).toNat = (a.toNat + 4095) / 4096 * 4096 := by
  have hsum : (a + pgsize - 1).toNat = a.toNat + 4095 := by
    have h₁ : (1 : UInt64).toNat = 1 := rfl
    rw [UInt64.toNat_sub, UInt64.toNat_add, pgsize_toNat, h₁]
    omega
  unfold pgroundup
  rw [toNat_and_not_low _ (k := 12) rfl (by omega), hsum]
  rfl

/-! ## Entries built from an address and flags -/

section Mk

variable {pa f : UInt64}

/-- `PA2PTE(pa) | f`, with `f` within the flag bits. -/
theorem toNat_mk (hf : f.toNat < 1024) : (pa2pte pa ||| f).toNat = pa.toNat / 4096 * 1024 + f.toNat := by
  rw [toNat_or_of_low (k := 10) (by rw [pa2pte_toNat]; omega) hf, pa2pte_toNat]

theorem pte2pa_mk (hpa : pa.toNat % 4096 = 0) (hf : f.toNat < 1024) : pte2pa (pa2pte pa ||| f) = pa := by
  apply UInt64.toNat_inj.mp
  have := pa.toNat_lt
  rw [pte2pa_toNat, toNat_mk hf]
  omega

theorem pteFlags_mk (hf : f.toNat < 1024) : pteFlags (pa2pte pa ||| f) = f := by
  apply UInt64.toNat_inj.mp
  rw [pteFlags_toNat, toNat_mk hf]
  omega

/-- A test of flag bits reads the flags alone. -/
theorem and_mk (hf : f.toNat < 1024) {g : UInt64} (hg : g.toNat < 1024) :
    (pa2pte pa ||| f) &&& g = f &&& g := by
  have hflags : pteFlags (pa2pte pa ||| f) = f := pteFlags_mk hf
  have hlow : ∀ e : UInt64, e &&& g = pteFlags e &&& g := fun e => by
    apply UInt64.toNat_inj.mp
    rw [UInt64.toNat_and, UInt64.toNat_and, pteFlags_toNat]
    apply Nat.eq_of_testBit_eq
    intro j
    rw [Nat.testBit_and, Nat.testBit_and, show 1024 = 2 ^ 10 from rfl, Nat.testBit_mod_two_pow]
    by_cases hj : j < 10
    · simp [hj]
    · have hpow : 2 ^ 10 ≤ 2 ^ j := Nat.pow_le_pow_right (by omega) (by omega)
      have : g.toNat.testBit j = false := Nat.testBit_lt_two_pow (by omega)
      simp [this]
  rw [hlow, hflags]

end Mk

theorem pteV_ne_zero : pteV ≠ 0 := by decide

/-- `f | PTE_V` is valid. -/
theorem valid_or_pteV (f : UInt64) : PteValid (f ||| pteV) := by
  intro h
  have h₁ := congrArg UInt64.toNat h
  have hodd : (f.toNat ||| 1) % 2 = 1 := by
    rw [Nat.mod_two_eq_one_iff_testBit_zero, Nat.testBit_or]
    simp
  rw [UInt64.toNat_and, UInt64.toNat_or, show pteV.toNat = 1 from rfl, Nat.and_one_is_mod,
    hodd] at h₁
  exact absurd h₁ (by decide)

@[simp] theorem not_valid_zero : ¬PteValid 0 := by decide

end Xv6.Kernel
