import Mathlib.Algebra.Group.Int.Defs
import Mathlib.Algebra.Group.Nat.Defs
import Xv6.Lib.Bytes
import Xv6.Kernel.Param

/-!
# The log header block

`kernel/log.c` keeps the block numbers of the running transaction in
`struct logheader { int n; int block[LOGSIZE]; }`, in memory as `log.lh` and
on disk in the first block of the log, by casting the block's data to a
`struct logheader *`. On RISC-V that puts `n` in bytes `0..3` and `block[i]`
in bytes `4(i+1) .. 4(i+1)+3`, little-endian.

In memory only `block[0..n)` is ever read (`install_trans`, `write_log`,
`write_head` and `log_write` all loop below `n`), so `LogHeader` keeps
exactly that prefix as a list. `encodeHead` is what `write_head` leaves in the
header block and `decodeHead` is what `read_head` copies out of it; the main
fact is `decodeHead_encodeHead`, which holds whenever the header fits its
block, as `initlog` checks.
-/

namespace Xv6.Kernel

open Xv6.Lib

/-- A block's data, `uchar data[BSIZE]`. -/
abbrev Block := Bytes bsize

/-- `struct logheader` in memory: the logged block numbers `block[0..n)`. -/
structure LogHeader where
  block : List UInt32
  deriving DecidableEq, Repr

namespace LogHeader

/-- `lh.n`. -/
def n (lh : LogHeader) : Nat := lh.block.length

/-- The empty header, `lh.n = 0`. -/
def empty : LogHeader := ⟨[]⟩

@[simp] theorem n_empty : empty.n = 0 := rfl

end LogHeader

/-- The signed value of the `int` stored in a 32-bit word. -/
def intOfWord (w : UInt32) : Int :=
  if w.toNat < 2 ^ 31 then w.toNat else (w.toNat : Int) - 2 ^ 32

/-- `hb->n`, the `int` at byte offset 0 of a header block. -/
def headerN (hb : Block) : Int := intOfWord (hb.getU32 0)

/-- `hb->block[i]`, the word at byte offset `4 * (i + 1)`. -/
def headerBlock (hb : Block) (i : Nat) : UInt32 := hb.getU32 (4 * (i + 1))

/-- What `read_head` copies into `log.lh`: `n`, then `block[i]` for `i < n`
(nothing when `n ≤ 0`). -/
def decodeHead (hb : Block) : LogHeader :=
  ⟨(List.range (headerN hb).toNat).map (headerBlock hb)⟩

/-- `hb->block[i] = lh.block[i]` for the entries from index `i` on. -/
def storeBlocks : Nat → List UInt32 → Block → Block
  | _, [], hb => hb
  | i, x :: xs, hb => storeBlocks (i + 1) xs (hb.setU32 (4 * (i + 1)) x)

/-- What `write_head` leaves in the header block `hb`: `n` and `block[0..n)`
stored, every other byte as it was. -/
def encodeHead (lh : LogHeader) (hb : Block) : Block :=
  storeBlocks 0 lh.block (hb.setU32 0 (UInt32.ofNat lh.n))

/-! ## Reading back what was stored -/

/-- Words below the first stored index are untouched. -/
theorem getU32_storeBlocks_of_le (i : Nat) (xs : List UInt32) (hb : Block) {o : Nat}
    (ho : o + 4 ≤ 4 * (i + 1)) : (storeBlocks i xs hb).getU32 o = hb.getU32 o := by
  induction xs generalizing i hb with
  | nil => rfl
  | cons x xs ih =>
    rw [storeBlocks, ih (i + 1) _ (by omega), Bytes.getU32_setU32_of_disjoint _ (by omega)]

/-- Entry `j` of the stored list reads back, when the list fits the block. -/
theorem headerBlock_storeBlocks (i : Nat) (xs : List UInt32) (hb : Block) {j : Nat}
    (hj : j < xs.length) (hfit : 4 * (i + xs.length + 1) ≤ bsize) :
    headerBlock (storeBlocks i xs hb) (i + j) = xs[j] := by
  induction xs generalizing i j hb with
  | nil => simp at hj
  | cons x xs ih =>
    simp only [List.length_cons] at hj hfit
    cases j with
    | zero =>
      rw [storeBlocks, headerBlock, getU32_storeBlocks_of_le _ _ _ (by omega),
        Nat.add_zero, Bytes.getU32_setU32_self _ (by omega)]
      rfl
    | succ j =>
      rw [storeBlocks, show i + (j + 1) = (i + 1) + j by omega,
        ih (i + 1) _ (by simpa using hj) (by omega)]
      rfl

theorem intOfWord_ofNat {m : Nat} (hm : m < 2 ^ 31) : intOfWord (UInt32.ofNat m) = m := by
  have hw : (UInt32.ofNat m).toNat = m := by
    rw [UInt32.toNat_ofNat']
    exact Nat.mod_eq_of_lt (by omega)
  rw [intOfWord, hw, if_pos hm]

/-- `read_head` after `write_head` gives back the header, when it fits its
block. -/
theorem decodeHead_encodeHead (lh : LogHeader) (hb : Block)
    (hfit : 4 * (lh.n + 1) ≤ bsize) : decodeHead (encodeHead lh hb) = lh := by
  have hN : headerN (encodeHead lh hb) = lh.n := by
    rw [headerN, encodeHead, getU32_storeBlocks_of_le _ _ _ (by omega),
      Bytes.getU32_setU32_self _ (by simp only [bsize_eq]; omega),
      intOfWord_ofNat (by simp only [bsize_eq] at hfit; omega)]
  obtain ⟨bs⟩ := lh
  simp only [decodeHead, hN, Int.toNat_natCast, LogHeader.mk.injEq]
  apply List.ext_getElem (by simp [LogHeader.n])
  intro j hj _
  simp only [List.getElem_map, List.getElem_range, encodeHead]
  have h := headerBlock_storeBlocks 0 bs (hb.setU32 0 (UInt32.ofNat (LogHeader.n ⟨bs⟩)))
    (j := j) (by simpa [LogHeader.n] using hj) (by simpa [LogHeader.n] using hfit)
  rwa [Nat.zero_add] at h

/-- Storing the empty header twice stores it once. -/
theorem encodeHead_empty_encodeHead_empty (hb : Block) :
    encodeHead LogHeader.empty (encodeHead LogHeader.empty hb) =
      encodeHead LogHeader.empty hb := by
  simp only [encodeHead, LogHeader.empty, storeBlocks]
  exact Bytes.setU32_setU32_self _ _ _ _

/-- A header whose `n` is not positive decodes to the empty header. -/
theorem decodeHead_of_headerN_nonpos {hb : Block} (h : headerN hb ≤ 0) :
    decodeHead hb = LogHeader.empty := by
  simp [decodeHead, LogHeader.empty, Int.toNat_eq_zero.mpr h]

end Xv6.Kernel
