import Xv6.Kernel.Fs.Layout

/-!
# The block allocator (`balloc`, `bfree`)

`balloc` scans the bitmap a bitmap block at a time (`b` steps by `BPB`) and
inside a block bit by bit (`bi`), takes the first block whose bit is clear,
sets the bit, zeroes the block and returns `b + bi`; `0` means the disk is
full. `bfree` clears a block's bit and panics if it was clear.

What the rest of the development uses:

* `ballocBlocks_some` — a block `balloc` finds is inside the disk, and its
  bit was clear;
* `used_setBit`, `used_clearBit` — the bit a write of the bitmap block sets or
  clears is that block's and no other's;
* `used_write_of_ge` — a write to a data block changes no bit.
-/

namespace Xv6.Kernel

open Xv6.Lib

/-- The inner loop of `balloc` over bitmap block `bp`, for the blocks
`b + bi`, from `bi` with `k` passes left: the first `bi` whose bit is clear. -/
def ballocBits (size : Nat) (bp : Block) (b bi : Nat) : Nat → Option Nat
  | 0 => none
  | k + 1 =>
    if bi < bpb ∧ b + bi < size then
      if bp.testBit bi = false then some bi else ballocBits size bp b (bi + 1) k
    else none

/-- The outer loop of `balloc`, from block `b` (a multiple of `BPB`) with `k`
passes left: the `b` and `bi` of the first block whose bit is clear. -/
def ballocBlocks (sb : Superblock) (d : Nat → Block) (b : Nat) : Nat → Option (Nat × Nat)
  | 0 => none
  | k + 1 =>
    if b < sb.size then
      match ballocBits sb.size (d (sb.bblock b)) b 0 bpb with
      | some bi => some (b, bi)
      | none => ballocBlocks sb d (b + bpb) k
    else none

/-- `balloc`: `0` when every bit is set. The outer loop makes at most
`sb.size / BPB + 1` passes before `b < sb.size` fails. -/
def balloc (sb : Superblock) (s : FsState) : Nat × FsState :=
  match ballocBlocks sb s.disk 0 (sb.size / bpb + 1) with
  | none => (0, s)
  | some (b, bi) =>
    let s := s.write (sb.bblock b) ((s.disk (sb.bblock b)).setBit bi)
    -- `bzero(dev, b + bi)`
    (b + bi, s.write (b + bi) Bytes.zero)

/-- `bfree(b)`. -/
def bfree (sb : Superblock) (s : FsState) (b : Nat) : Except String FsState :=
  let bp := s.disk (sb.bblock b)
  let bi := b % bpb
  if bp.testBit bi = false then .error "freeing free block"
  else .ok (s.write (sb.bblock b) (bp.clearBit bi))

/-! ## What `balloc` finds -/

theorem ballocBits_some {size : Nat} {bp : Block} {b bi k r : Nat}
    (h : ballocBits size bp b bi k = some r) :
    r < bpb ∧ b + r < size ∧ bp.testBit r = false := by
  induction k generalizing bi with
  | zero => cases h
  | succ k ih =>
    unfold ballocBits at h
    split_ifs at h with hin hbit
    · cases h
      exact ⟨hin.1, hin.2, hbit⟩
    · exact ih h

theorem ballocBlocks_some {sb : Superblock} {d : Nat → Block} {b k c bi : Nat}
    (hb : b % bpb = 0) (h : ballocBlocks sb d b k = some (c, bi)) :
    c % bpb = 0 ∧ bi < bpb ∧ c + bi < sb.size ∧ (d (sb.bblock c)).testBit bi = false := by
  induction k generalizing b with
  | zero => cases h
  | succ k ih =>
    unfold ballocBlocks at h
    split_ifs at h with hsize
    split at h
    · rename_i r hr
      cases h
      obtain ⟨hlt, hsz, hbit⟩ := ballocBits_some hr
      exact ⟨hb, hlt, hsz, hbit⟩
    · exact ih (by rw [Nat.add_mod_right]; exact hb) h

/-- `b + bi`, for `b` a multiple of `BPB` and `bi < BPB`, has its bit in
`b`'s bitmap block at place `bi`. -/
theorem bblock_add {sb : Superblock} {b bi : Nat} (hb : b % bpb = 0) (hbi : bi < bpb) :
    sb.bblock (b + bi) = sb.bblock b ∧ (b + bi) % bpb = bi := by
  unfold Superblock.bblock
  rw [bpb_eq] at hb hbi ⊢
  constructor <;> omega

/-! ## Bits after a write -/

theorem mod_bpb_lt (x : Nat) : x % bpb < 8 * bsize :=
  calc x % bpb < bpb := Nat.mod_lt x (by decide)
    _ = 8 * bsize := by decide

/-- Two blocks with one bitmap block have one bit iff they are one block. -/
theorem mod_bpb_eq_iff {sb : Superblock} {x y : Nat} (hb : sb.bblock x = sb.bblock y) :
    x % bpb = y % bpb ↔ x = y := by
  unfold Superblock.bblock at hb
  rw [bpb_eq] at hb ⊢
  omega

namespace FsState

variable {sb : Superblock} {s : FsState}

theorem used_setBit (x y : Nat) :
    (s.write (sb.bblock x) ((s.disk (sb.bblock x)).setBit (x % bpb))).used sb y =
      Function.update (s.used sb) x true y := by
  rw [Function.update_apply]
  unfold used
  rw [write_disk]
  by_cases hb : sb.bblock y = sb.bblock x
  · rw [hb, Function.update_self, Bytes.testBit_setBit _ (mod_bpb_lt x)]
    simp only [mod_bpb_eq_iff hb.symm]
    by_cases hxy : y = x
    · simp [hxy]
    · simp [hxy, Ne.symm hxy]
  · have hxy : y ≠ x := fun h => hb (h ▸ rfl)
    rw [Function.update_of_ne hb, if_neg hxy]

theorem used_clearBit (x y : Nat) :
    (s.write (sb.bblock x) ((s.disk (sb.bblock x)).clearBit (x % bpb))).used sb y =
      Function.update (s.used sb) x false y := by
  rw [Function.update_apply]
  unfold used
  rw [write_disk]
  by_cases hb : sb.bblock y = sb.bblock x
  · rw [hb, Function.update_self, Bytes.testBit_clearBit _ (mod_bpb_lt x)]
    simp only [ne_eq, mod_bpb_eq_iff hb.symm]
    by_cases hxy : y = x
    · simp [hxy]
    · simp [hxy, Ne.symm hxy]
  · have hxy : y ≠ x := fun h => hb (h ▸ rfl)
    rw [Function.update_of_ne hb, if_neg hxy]

/-- A change to one data block leaves the bitmap alone. -/
theorem used_of_ge (hwf : sb.Wf) {s' : FsState} {b : Nat} (hb : sb.dstart ≤ b)
    (hd : ∀ z, z ≠ b → s'.disk z = s.disk z) {y : Nat} (hy : y < sb.size) :
    s'.used sb y = s.used sb y := by
  unfold used
  rw [hd]
  have := hwf.bblock_lt y hy
  omega

theorem used_write_of_ge (hwf : sb.Wf) {b : Nat} (hb : sb.dstart ≤ b) (v : Block) {y : Nat}
    (hy : y < sb.size) : (s.write b v).used sb y = s.used sb y :=
  used_of_ge hwf hb (fun _ hz => Function.update_of_ne hz _ _) hy

end FsState

/-- Under single ownership a block a data slot holds is no allocated inode's
indirect block, so it can be changed without moving any slot. -/
theorem FsState.slotVal_of_held {sb : Superblock} {s s' : FsState} {u : Nat → Bool} {lo hi : Nat}
    (hown : Owned (s.slotVal sb) u lo hi) {p : Fin sb.ninodes × Slot} (hq : p.2 ≠ Slot.ptr)
    (hs : s'.inodes = s.inodes)
    (hd : ∀ z, z ≠ s.slotVal sb p → s'.disk z = s.disk z) : s'.slotVal sb = s.slotVal sb := by
  refine FsState.slotVal_setDisk hs hd fun i hi hp heq => ?_
  rw [← FsState.slotVal_ptr i hi] at heq hp
  exact hq (by rw [← hown.eq_of_held hp heq])

/-- Under single ownership no two allocated inodes share an indirect block. -/
theorem FsState.ptr_unique {sb : Superblock} {s : FsState} {u : Nat → Bool} {lo hi : Nat}
    (hown : Owned (s.slotVal sb) u lo hi) {i : Fin sb.ninodes} (hi : (s.inodes i).type ≠ 0)
    (hp : (s.inodes i).ptr ≠ 0) (i' : Fin sb.ninodes) (hne : i' ≠ i)
    (hi' : (s.inodes i').type ≠ 0) : (s.inodes i').ptr ≠ (s.inodes i).ptr := by
  intro heq
  have h1 : s.slotVal sb (i', Slot.ptr) = _ := FsState.slotVal_ptr i' hi'
  have h2 : s.slotVal sb (i, Slot.ptr) = _ := FsState.slotVal_ptr i hi
  exact hne (congrArg Prod.fst (hown.eq_of_held (i := (i', Slot.ptr)) (j := (i, Slot.ptr))
    (by rw [h1, heq]; exact hp) (by rw [h1, h2, heq])))

/-! ## The allocator's invariant

Every block before the data blocks is marked in use, and over the data
blocks the bitmap is in step with the slots of the allocated inodes. -/

structure BlockInv (sb : Superblock) (s : FsState) : Prop where
  reserved : ∀ b < sb.dstart, s.used sb b = true
  owned : Owned (s.slotVal sb) (s.used sb) sb.dstart sb.size

namespace BlockInv

variable {sb : Superblock} {s : FsState}

/-- An allocated inode's indirect block is a data block that it holds. -/
theorem ptr_mem (h : BlockInv sb s) {i : Fin sb.ninodes} (hi : (s.inodes i).type ≠ 0)
    (hp : (s.inodes i).ptr ≠ 0) :
    sb.dstart ≤ (s.inodes i).ptr ∧ 0 < s.refCount sb (s.inodes i).ptr := by
  have hv : s.slotVal sb (i, Slot.ptr) = _ := FsState.slotVal_ptr i hi
  rw [← hv] at hp ⊢
  exact ⟨(h.owned.inside _ hp).1, count_pos rfl⟩

theorem ptr_ne_of_lt (h : BlockInv sb s) {i : Fin sb.ninodes} (hi : (s.inodes i).type ≠ 0)
    {b : Nat} (hb : b < sb.dstart) (hp : (s.inodes i).ptr ≠ 0) : (s.inodes i).ptr ≠ b := by
  have := (h.ptr_mem hi hp).1
  omega

theorem ptr_ne_of_free (h : BlockInv sb s) {i : Fin sb.ninodes} (hi : (s.inodes i).type ≠ 0)
    {b : Nat} (hb : s.refCount sb b = 0) (hp : (s.inodes i).ptr ≠ 0) : (s.inodes i).ptr ≠ b := by
  intro heq
  have := (h.ptr_mem hi hp).2
  rw [heq, hb] at this
  exact absurd this (lt_irrefl 0)

/-- `iupdate` only logs the inode's block. -/
theorem iupdate (h : BlockInv sb s) (n : Nat) : BlockInv sb (s.iupdate sb n) :=
  ⟨h.reserved, h.owned⟩

/-- Bits agreeing on the disk's blocks, slots agreeing everywhere: the
invariant carries over. -/
theorem congr {s' : FsState} (h : BlockInv sb s) (hslot : s'.slotVal sb = s.slotVal sb)
    (hused : ∀ b < sb.size, s'.used sb b = s.used sb b) : BlockInv sb s' where
  reserved b hb := by
    rw [hused b (by have := sb.dstart_le; omega)]
    exact h.reserved b hb
  owned := by
    rw [hslot]
    exact h.owned.congr_bits fun b _ hb => hused b hb

end BlockInv

section Spec

variable {sb : Superblock} {s s' : FsState} {x : Nat}

/-- What `balloc` does from a state of the invariant: it fails and changes
nothing, or it returns a free data block, now marked and zeroed, and no slot
changes. -/
theorem balloc_cases (hwf : sb.Wf) (hinv : BlockInv sb s) (h : balloc sb s = (x, s')) :
    (x = 0 ∧ s' = s) ∨
    (sb.dstart ≤ x ∧ x < sb.size ∧ s.used sb x = false ∧
      (∀ y < sb.size, s'.used sb y = Function.update (s.used sb) x true y) ∧
      s'.inodes = s.inodes ∧ s'.disk x = Bytes.zero ∧ s'.slotVal sb = s.slotVal sb) := by
  unfold balloc at h
  split at h
  · cases h
    exact .inl ⟨rfl, rfl⟩
  · rename_i b bi hfound
    obtain ⟨hb, hbi, hsize, hbit⟩ := ballocBlocks_some (Nat.zero_mod _) hfound
    obtain ⟨hblk, hmod⟩ : sb.bblock (b + bi) = sb.bblock b ∧ _ := bblock_add hb hbi
    cases h
    -- the bit `balloc` tests and sets is block `b + bi`'s own
    have hfree : s.used sb (b + bi) = false := by
      rw [FsState.used, hblk, hmod]
      exact hbit
    have hdata : sb.dstart ≤ b + bi := by
      by_contra hlt
      have := hinv.reserved _ (Nat.lt_of_not_le hlt)
      rw [hfree] at this
      cases this
    have hcount : s.refCount sb (b + bi) = 0 := hinv.owned.count_eq_zero hdata hsize hfree
    let s₁ := s.write (sb.bblock (b + bi)) ((s.disk (sb.bblock (b + bi))).setBit ((b + bi) % bpb))
    have hs₁ : s.write (sb.bblock b) ((s.disk (sb.bblock b)).setBit bi) = s₁ := by
      simp only [s₁, hblk, hmod]
    rw [hs₁]
    have hslot₁ : s₁.slotVal sb = s.slotVal sb :=
      FsState.slotVal_setDisk (x := sb.bblock (b + bi)) rfl
        (fun _ hz => Function.update_of_ne hz _ _)
        (fun i hi hp => hinv.ptr_ne_of_lt hi (hwf.bblock_lt _ hsize) hp)
    refine .inr ⟨hdata, hsize, hfree, fun y hy => ?_, rfl, by simp, ?_⟩
    · rw [FsState.used_write_of_ge hwf hdata _ hy]
      exact FsState.used_setBit _ _
    · have hslot₂ : (s₁.write (b + bi) Bytes.zero).slotVal sb = s₁.slotVal sb :=
        FsState.slotVal_setDisk rfl (fun _ hz => Function.update_of_ne hz _ _)
          (fun i hi hp => hinv.ptr_ne_of_free hi hcount hp)
      rw [hslot₂, hslot₁]

/-- `balloc` followed by storing its block in an empty slot `p`: the
allocator's `enter` move keeps the invariant. -/
theorem BlockInv.enter (hwf : sb.Wf) (hinv : BlockInv sb s) (hb : balloc sb s = (x, s'))
    (hx : x ≠ 0) {p : Fin sb.ninodes × Slot} (hp : s.slotVal sb p = 0) {s'' : FsState}
    (hslot : s''.slotVal sb = Function.update (s'.slotVal sb) p x)
    (hused : ∀ y < sb.size, s''.used sb y = s'.used sb y) : BlockInv sb s'' := by
  rcases balloc_cases hwf hinv hb with ⟨rfl, -⟩ | ⟨hlo, hhi, hfree, hbits, -, -, hslot'⟩
  · exact absurd rfl hx
  · have hown := hinv.owned.enter hp hlo hhi hfree
    refine ⟨fun b hb => ?_, ?_⟩
    · have hbs : b < sb.size := by have := sb.dstart_le; omega
      rw [hused b hbs, hbits b hbs, Function.update_of_ne (by omega)]
      exact hinv.reserved b hb
    · rw [hslot, hslot']
      exact hown.congr_bits fun y _ hy => by rw [hused y hy, hbits y hy]

/-- `bfree` of a block whose bit is set clears that bit alone and touches no
data block. -/
theorem bfree_ok (hwf : sb.Wf) {b : Nat} (hb : b < sb.size) (hu : s.used sb b = true) :
    ∃ s', bfree sb s b = .ok s' ∧ (∀ y, s'.used sb y = Function.update (s.used sb) b false y) ∧
      s'.inodes = s.inodes ∧ ∀ z, sb.dstart ≤ z → s'.disk z = s.disk z := by
  refine ⟨_, ?_, FsState.used_clearBit b, rfl, fun z hz => ?_⟩
  · unfold bfree
    rw [if_neg (by simpa [FsState.used] using hu)]
  · have := hwf.bblock_lt b hb
    exact Function.update_of_ne (by omega) _ _

end Spec

end Xv6.Kernel
