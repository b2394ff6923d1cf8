import Mathlib.Data.Fintype.Prod
import Xv6.Lib.Bitmap
import Xv6.Lib.Count
import Xv6.Kernel.Log.Header

/-!
# The on-disk file system (`kernel/fs.h`)

The disk layout `mkfs` writes, the on-disk inode, and the state the
allocator and the inode layer work on: the disk's blocks, the array of
on-disk inodes (`struct dinode`, kept as records), and the block numbers the
current operation has passed to `log_write`.

Every inode has `NDIRECT + 1 + NINDIRECT` block slots: the direct entries of
`addrs[]`, the indirect pointer `addrs[NDIRECT]`, and the entries of the
indirect block. `slotVal` reads a slot (`0` when empty or the inode is free),
and `refCount s b` counts the slots that name block `b`: the allocator's
invariant is that a data block's bitmap bit is set iff that count is one.
-/

namespace Xv6.Kernel

open Xv6.Lib

/-- `NDIRECT`. -/
def ndirect : Nat := 12

/-- `NINDIRECT`, the `uint` entries of one block. -/
def nindirect : Nat := bsize / 4

/-- `MAXFILE`. -/
def maxfile : Nat := ndirect + nindirect

/-- `BPB`, bitmap bits per block. -/
def bpb : Nat := bsize * 8

/-- `IPB`, inodes per block (`sizeof(struct dinode)` is 64). -/
def ipb : Nat := bsize / 64

theorem ndirect_eq : ndirect = 12 := rfl
theorem nindirect_eq : nindirect = 256 := rfl
theorem bpb_eq : bpb = 8192 := rfl

/-- `struct superblock`, less `magic`, which only `fsinit` checks. -/
structure Superblock where
  size : Nat
  nblocks : Nat
  ninodes : Nat
  nlog : Nat
  logstart : Nat
  inodestart : Nat
  bmapstart : Nat
  deriving DecidableEq, Repr

namespace Superblock

/-- `BBLOCK(b, sb)`: the bitmap block holding block `b`'s bit. -/
def bblock (sb : Superblock) (b : Nat) : Nat := b / bpb + sb.bmapstart

/-- `IBLOCK(i, sb)`: the block holding inode `i`. -/
def iblock (sb : Superblock) (i : Nat) : Nat := i / ipb + sb.inodestart

/-- The first data block, `sb.size - sb.nblocks`. -/
def dstart (sb : Superblock) : Nat := sb.size - sb.nblocks

theorem dstart_le (sb : Superblock) : sb.dstart ≤ sb.size := Nat.sub_le _ _

/-- What the allocator needs of a layout: every bitmap block it addresses
lies before the data blocks. -/
structure Wf (sb : Superblock) : Prop where
  nblocks_le : sb.nblocks ≤ sb.size
  bblock_lt : ∀ b < sb.size, sb.bblock b < sb.dstart
  size_lt : sb.size < 2 ^ 32

end Superblock

/-- `NINODES` of `mkfs`. -/
def mkfsNinodes : Nat := 200

/-- The layout `mkfs` computes: `nbitmap = FSSIZE/BPB + 1`,
`ninodeblocks = NINODES/IPB + 1`, `nmeta = 2 + nlog + ninodeblocks + nbitmap`. -/
def mkfsSb : Superblock :=
  let nbitmap := fsSize / bpb + 1
  let ninodeblocks := mkfsNinodes / ipb + 1
  let nmeta := 2 + logSize + ninodeblocks + nbitmap
  ⟨fsSize, fsSize - nmeta, mkfsNinodes, logSize, 2, 2 + logSize, 2 + logSize + ninodeblocks⟩

theorem mkfsSb_wf : mkfsSb.Wf where
  nblocks_le := by decide
  bblock_lt b hb := by
    have hb' : b < 2000 := hb
    show b / 8192 + 45 < 46
    omega
  size_lt := by decide

/-- `T_DIR`, `T_FILE`, `T_DEVICE`; `0` marks a free inode. -/
def tDir : Int := 1
def tFile : Int := 2
def tDevice : Int := 3

/-- `struct dinode`, less `major` and `minor`, which no block or name
operation reads. `nlink` is the `short` of the struct, so that `ip->nlink++`
wraps as it does in C; `type` takes only the values below. -/
structure DInode where
  type : Int
  nlink : Int16
  size : UInt32
  addrs : Fin (ndirect + 1) → UInt32

/-- The inode `ialloc` writes: `memset(dip, 0, ...)`, then the type. -/
def DInode.fresh (type : Int) : DInode := ⟨type, 0, 0, fun _ => 0⟩

/-- The state of the file system. -/
structure FsState where
  disk : Nat → Block
  inodes : Nat → DInode
  /-- the blocks passed to `log_write` by the current operation, in order -/
  logged : List Nat

namespace FsState

/-- Change block `b` in the buffer cache without `log_write`. -/
def setBlock (s : FsState) (b : Nat) (v : Block) : FsState :=
  { s with disk := Function.update s.disk b v }

/-- Write `v` to block `b` through the buffer cache and `log_write` it. -/
def write (s : FsState) (b : Nat) (v : Block) : FsState :=
  { s with disk := Function.update s.disk b v, logged := s.logged ++ [b] }

/-- `iupdate(ip)`: the record is the on-disk inode, so only the `log_write`
of its block remains. -/
def iupdate (sb : Superblock) (s : FsState) (inum : Nat) : FsState :=
  { s with logged := s.logged ++ [sb.iblock inum] }

/-- Change inode `inum`'s record. -/
def setInode (s : FsState) (inum : Nat) (ino : DInode) : FsState :=
  { s with inodes := Function.update s.inodes inum ino }

/-- Bitmap bit of block `b`: set iff `b` is in use. -/
def used (sb : Superblock) (s : FsState) (b : Nat) : Bool :=
  (s.disk (sb.bblock b)).testBit (b % bpb)

variable {s : FsState} {b : Nat} {v : Block}

@[simp] theorem setBlock_disk : (s.setBlock b v).disk = Function.update s.disk b v := rfl
@[simp] theorem setBlock_inodes : (s.setBlock b v).inodes = s.inodes := rfl
@[simp] theorem setBlock_logged : (s.setBlock b v).logged = s.logged := rfl
@[simp] theorem write_disk : (s.write b v).disk = Function.update s.disk b v := rfl
@[simp] theorem write_inodes : (s.write b v).inodes = s.inodes := rfl
@[simp] theorem write_logged : (s.write b v).logged = s.logged ++ [b] := rfl
@[simp] theorem setInode_disk {i : Nat} {d : DInode} : (s.setInode i d).disk = s.disk := rfl
@[simp] theorem setInode_inodes {i : Nat} {d : DInode} :
    (s.setInode i d).inodes = Function.update s.inodes i d := rfl
@[simp] theorem setInode_logged {i : Nat} {d : DInode} : (s.setInode i d).logged = s.logged := rfl
@[simp] theorem iupdate_disk {sb : Superblock} {i : Nat} : (s.iupdate sb i).disk = s.disk := rfl
@[simp] theorem iupdate_inodes {sb : Superblock} {i : Nat} :
    (s.iupdate sb i).inodes = s.inodes := rfl
@[simp] theorem iupdate_logged {sb : Superblock} {i : Nat} :
    (s.iupdate sb i).logged = s.logged ++ [sb.iblock i] := rfl

end FsState

/-! ## Block slots and reference counts -/

/-- The slots of one inode: `addrs[0..NDIRECT]` then the indirect entries. -/
abbrev Slot := Fin (ndirect + 1 + nindirect)

/-- The slot of `addrs[k]`. -/
def Slot.addr (k : Fin (ndirect + 1)) : Slot := Fin.castAdd nindirect k

/-- The slot of entry `j` of the indirect block. -/
def Slot.entry (j : Fin nindirect) : Slot := Fin.natAdd (ndirect + 1) j

/-- The slot of the indirect pointer `addrs[NDIRECT]`. -/
def Slot.ptr : Slot := Slot.addr (Fin.last ndirect)

/-- Entry `j` of an indirect block: `((uint *)bp->data)[j]`. -/
def indirectEntry (bp : Block) (j : Nat) : Nat := (bp.getU32 (4 * j)).toNat

/-- The indirect block of an inode, `0` when it has none. -/
def DInode.ptr (ino : DInode) : Nat := (ino.addrs (Fin.last ndirect)).toNat

/-- The block a slot of an inode names, `0` when it is empty. -/
def DInode.slot (d : Nat → Block) (ino : DInode) (k : Slot) : Nat :=
  if h : k.val < ndirect + 1 then (ino.addrs ⟨k.val, h⟩).toNat
  else if ino.ptr = 0 then 0 else indirectEntry (d ino.ptr) (k.val - (ndirect + 1))

namespace DInode

variable {d : Nat → Block} {ino : DInode}

@[simp] theorem slot_addr (k : Fin (ndirect + 1)) : ino.slot d (Slot.addr k) = (ino.addrs k).toNat := by
  have hk : (Slot.addr k).val < ndirect + 1 := k.isLt
  rw [slot, dif_pos hk]
  rfl

@[simp] theorem slot_entry (j : Fin nindirect) :
    ino.slot d (Slot.entry j) = if ino.ptr = 0 then 0 else indirectEntry (d ino.ptr) j := by
  have hj : ¬ (Slot.entry j).val < ndirect + 1 := by
    show ¬ ndirect + 1 + j.val < ndirect + 1
    omega
  rw [slot, dif_neg hj]
  show (if ino.ptr = 0 then 0 else indirectEntry (d ino.ptr) (ndirect + 1 + j.val - (ndirect + 1))) = _
  rw [Nat.add_sub_cancel_left]

theorem slot_ptr : ino.slot d Slot.ptr = ino.ptr := slot_addr _

theorem addr_injective : Function.Injective Slot.addr := Fin.castAdd_injective _ _

theorem entry_injective : Function.Injective Slot.entry := by
  intro a b h
  have := congrArg Fin.val h
  simp only [Slot.entry, Fin.val_natAdd] at this
  exact Fin.ext (by omega)

theorem entry_ne_addr (j : Fin nindirect) (k : Fin (ndirect + 1)) : Slot.entry j ≠ Slot.addr k := by
  intro h
  have := congrArg Fin.val h
  simp [Slot.entry, Slot.addr] at this
  omega

/-- Setting a direct entry `addrs[k]` changes that slot alone. -/
theorem slot_setAddr {k : Fin (ndirect + 1)} (hk : k ≠ Fin.last ndirect) (v : UInt32) (q : Slot) :
    { ino with addrs := Function.update ino.addrs k v }.slot d q =
      if q = Slot.addr k then v.toNat else ino.slot d q := by
  have hp : { ino with addrs := Function.update ino.addrs k v }.ptr = ino.ptr := by
    simp [ptr, Function.update_of_ne hk.symm]
  induction q using Fin.addCases with
  | left a =>
    have ha : Slot.addr a = Fin.castAdd nindirect a := rfl
    rw [← ha, slot_addr, slot_addr]
    by_cases hak : a = k
    · subst hak
      simp
    · simp [hak, addr_injective.eq_iff]
  | right j =>
    have hj : Slot.entry j = Fin.natAdd (ndirect + 1) j := rfl
    rw [← hj, slot_entry, slot_entry, hp, if_neg (entry_ne_addr j k)]

/-- Setting the indirect pointer of an inode without one, to a block whose
entries are all empty, fills that slot alone. -/
theorem slot_setPtr (hp : ino.ptr = 0) {v : UInt32} (hz : ∀ j, indirectEntry (d v.toNat) j = 0)
    (q : Slot) :
    { ino with addrs := Function.update ino.addrs (Fin.last ndirect) v }.slot d q =
      if q = Slot.ptr then v.toNat else ino.slot d q := by
  induction q using Fin.addCases with
  | left a =>
    have ha : Slot.addr a = Fin.castAdd nindirect a := rfl
    rw [← ha, slot_addr, slot_addr, Slot.ptr]
    by_cases hak : a = Fin.last ndirect
    · subst hak
      simp
    · simp [hak, addr_injective.eq_iff]
  | right j =>
    have hj : Slot.entry j = Fin.natAdd (ndirect + 1) j := rfl
    rw [← hj, slot_entry, slot_entry, hp, Slot.ptr, if_neg (entry_ne_addr j _)]
    simp [ptr, hz]

/-- Filling an empty `addrs[k]`, direct or the indirect pointer, fills that
slot alone, provided a new indirect block has no entries. -/
theorem slot_fill {k : Fin (ndirect + 1)} (hk : (ino.addrs k).toNat = 0) {v : UInt32}
    (hz : k = Fin.last ndirect → ∀ j, indirectEntry (d v.toNat) j = 0) (q : Slot) :
    { ino with addrs := Function.update ino.addrs k v }.slot d q =
      if q = Slot.addr k then v.toNat else ino.slot d q := by
  by_cases hlast : k = Fin.last ndirect
  · subst hlast
    exact slot_setPtr hk (hz rfl) q
  · exact slot_setAddr hlast v q

/-- Clearing the indirect pointer empties the pointer's slot and every entry's. -/
theorem slot_clearPtr (q : Slot) :
    { ino with addrs := Function.update ino.addrs (Fin.last ndirect) 0 }.slot d q =
      if ndirect ≤ q.val then 0 else ino.slot d q := by
  induction q using Fin.addCases with
  | left a =>
    have ha : Slot.addr a = Fin.castAdd nindirect a := rfl
    rw [← ha, slot_addr, slot_addr]
    by_cases hak : a = Fin.last ndirect
    · subst hak
      have hle : ndirect ≤ (Slot.addr (Fin.last ndirect)).val := by simp [Slot.addr]
      rw [if_pos hle]
      simp
    · have hlt : a.val < ndirect := Fin.val_lt_last hak
      simp [hak, Slot.addr, Nat.not_le.mpr hlt]
  | right j =>
    have hj : Slot.entry j = Fin.natAdd (ndirect + 1) j := rfl
    have hle : ndirect ≤ (Slot.entry j).val := by
      simp only [Slot.entry, Fin.val_natAdd]
      omega
    rw [← hj, slot_entry, if_pos hle]
    simp [ptr]

/-- Two inodes with the same `addrs[]`, over disks that agree on the
indirect block, name the same block in every slot. -/
theorem slot_congr {d' : Nat → Block} {ino' : DInode} (ha : ino'.addrs = ino.addrs)
    (hd : ino.ptr ≠ 0 → d' ino.ptr = d ino.ptr) (k : Slot) : ino'.slot d' k = ino.slot d k := by
  have hp : ino'.ptr = ino.ptr := by rw [ptr, ptr, ha]
  induction k using Fin.addCases with
  | left k => exact (slot_addr (d := d') k).trans (ha ▸ (slot_addr k).symm)
  | right j =>
    have hj : ino'.slot d' (Fin.natAdd (ndirect + 1) j) = _ := slot_entry j
    rw [hj, hp, ← Slot.entry, slot_entry]
    by_cases h0 : ino.ptr = 0
    · simp [h0]
    · rw [if_neg h0, if_neg h0, hd h0]

end DInode

namespace FsState

/-- The block slot `k` of inode `i` names, `0` for a free inode. -/
def slotVal (sb : Superblock) (s : FsState) (p : Fin sb.ninodes × Slot) : Nat :=
  if (s.inodes p.1).type = 0 then 0 else (s.inodes p.1).slot s.disk p.2

/-- How many slots of allocated inodes name block `b`. -/
def refCount (sb : Superblock) (s : FsState) (b : Nat) : Nat := count (s.slotVal sb) b

variable {sb : Superblock} {s s' : FsState}

theorem slotVal_of_type (i : Fin sb.ninodes) (k : Slot) (h : (s.inodes i).type ≠ 0) :
    s.slotVal sb (i, k) = (s.inodes i).slot s.disk k := if_neg h

theorem slotVal_ptr (i : Fin sb.ninodes) (h : (s.inodes i).type ≠ 0) :
    s.slotVal sb (i, Slot.ptr) = (s.inodes i).ptr := by
  rw [slotVal_of_type i _ h, DInode.slot_ptr]

/-- The frame rule: states whose inodes have the same types (free or not) and
`addrs[]`, and whose disks agree on the indirect blocks of the allocated
inodes, have the same slots. -/
theorem slotVal_congr
    (htype : ∀ i : Fin sb.ninodes, (s'.inodes i).type = 0 ↔ (s.inodes i).type = 0)
    (haddrs : ∀ i : Fin sb.ninodes, (s.inodes i).type ≠ 0 → (s'.inodes i).addrs = (s.inodes i).addrs)
    (hdisk : ∀ i : Fin sb.ninodes, (s.inodes i).type ≠ 0 → (s.inodes i).ptr ≠ 0 →
      s'.disk (s.inodes i).ptr = s.disk (s.inodes i).ptr) :
    s'.slotVal sb = s.slotVal sb := by
  funext ⟨i, k⟩
  unfold slotVal
  by_cases hi : (s.inodes i).type = 0
  · simp [hi, (htype i).mpr hi]
  · rw [if_neg hi, if_neg (fun h => hi ((htype i).mp h))]
    exact DInode.slot_congr (haddrs i hi) (hdisk i hi) k

/-- A change to one allocated inode's record that keeps it allocated and
moves one of its slots to `x`. -/
theorem slotVal_setInode {i : Fin sb.ninodes} {ino' : DInode} {q : Slot} {x : Nat}
    (hi : (s.inodes i).type ≠ 0) (ht : ino'.type ≠ 0)
    (hslot : ∀ k, ino'.slot s.disk k = if k = q then x else (s.inodes i).slot s.disk k) :
    (s.setInode i ino').slotVal sb = Function.update (s.slotVal sb) (i, q) x := by
  funext ⟨j, k⟩
  by_cases hji : j = i
  · subst hji
    have hlhs : (s.setInode j ino').slotVal sb (j, k) = ino'.slot s.disk k := by
      simp only [slotVal, setInode_inodes, setInode_disk, Function.update_self, if_neg ht]
    rw [hlhs, hslot]
    by_cases hkq : k = q
    · subst hkq
      simp
    · rw [if_neg hkq, Function.update_of_ne (by simp [hkq]), slotVal_of_type j k hi]
  · have hne : (j : Nat) ≠ i := fun h => hji (Fin.ext h)
    rw [Function.update_of_ne (by simp [hji])]
    simp only [slotVal, setInode_inodes, setInode_disk, Function.update_of_ne hne]

/-- A block that is no allocated inode's indirect block can be written
without changing any slot. -/
theorem slotVal_setDisk {x : Nat} (hs : s'.inodes = s.inodes)
    (hd : ∀ b, b ≠ x → s'.disk b = s.disk b)
    (hx : ∀ i : Fin sb.ninodes, (s.inodes i).type ≠ 0 → (s.inodes i).ptr ≠ 0 →
      (s.inodes i).ptr ≠ x) :
    s'.slotVal sb = s.slotVal sb :=
  slotVal_congr (fun i => by rw [hs]) (fun i _ => by rw [hs])
    (fun i hi hp => hd _ (hx i hi hp))

/-- A change confined to blocks below `lo`, where no allocated inode keeps its
indirect block, changes no slot. -/
theorem slotVal_of_disk_ge {lo : Nat} (hs : s'.inodes = s.inodes)
    (hd : ∀ z, lo ≤ z → s'.disk z = s.disk z)
    (hptr : ∀ i : Fin sb.ninodes, (s.inodes i).type ≠ 0 → (s.inodes i).ptr ≠ 0 →
      lo ≤ (s.inodes i).ptr) :
    s'.slotVal sb = s.slotVal sb :=
  slotVal_congr (fun i => by rw [hs]) (fun i _ => by rw [hs])
    (fun i hi hp => hd _ (hptr i hi hp))

/-- Clearing an allocated inode's indirect pointer empties its pointer slot
and its entries and nothing else. -/
theorem slotVal_clearPtr {i : Fin sb.ninodes} (hi : (s.inodes i).type ≠ 0) :
    (s.setInode i { s.inodes i with
        addrs := Function.update (s.inodes i).addrs (Fin.last ndirect) 0 }).slotVal sb =
      fun p => if p.1 = i ∧ ndirect ≤ p.2.val then 0 else s.slotVal sb p := by
  funext ⟨j, q⟩
  by_cases hji : j = i
  · subst hji
    simp only [slotVal, setInode_inodes, setInode_disk, Function.update_self, if_neg hi,
      DInode.slot_clearPtr, true_and]
  · have hne : (j : Nat) ≠ i := fun h => hji (Fin.ext h)
    simp only [slotVal, setInode_inodes, setInode_disk, Function.update_of_ne hne, hji,
      false_and, if_false]

/-- An inode whose `addrs[]` are all zero holds no block. -/
theorem slotVal_of_addrs_zero {i : Fin sb.ninodes} (h : ∀ k, (s.inodes i).addrs k = 0)
    (q : Slot) : s.slotVal sb (i, q) = 0 := by
  unfold slotVal
  split_ifs
  · rfl
  · have hp : (s.inodes i).ptr = 0 := by simp [DInode.ptr, h]
    induction q using Fin.addCases with
    | left k =>
      have hk : Slot.addr k = Fin.castAdd nindirect k := rfl
      rw [← hk, DInode.slot_addr, h]
      rfl
    | right j =>
      have hj : Slot.entry j = Fin.natAdd (ndirect + 1) j := rfl
      rw [← hj, DInode.slot_entry, if_pos hp]

/-- Replacing the record of an inode that holds no block, by a free one or one
with no `addrs[]`, moves no slot. -/
theorem slotVal_setInode_of_zero {i : Fin sb.ninodes} {ino : DInode}
    (hbefore : ∀ q, s.slotVal sb (i, q) = 0) (hafter : ino.type = 0 ∨ ∀ k, ino.addrs k = 0) :
    (s.setInode i ino).slotVal sb = s.slotVal sb := by
  funext ⟨j, q⟩
  by_cases hji : j = i
  · subst hji
    rw [hbefore]
    rcases hafter with h0 | h0
    · simp [slotVal, h0]
    · exact slotVal_of_addrs_zero (by simpa using h0) q
  · have hne : (j : Nat) ≠ i := fun h => hji (Fin.ext h)
    simp only [slotVal, setInode_inodes, setInode_disk, Function.update_of_ne hne]

/-- A new record with the inode's type and `addrs[]` moves no slot. -/
theorem slotVal_setInode_same (i : Nat) {ino : DInode} (ht : ino.type = (s.inodes i).type)
    (ha : ino.addrs = (s.inodes i).addrs) : (s.setInode i ino).slotVal sb = s.slotVal sb := by
  refine slotVal_congr (fun m => ?_) (fun m _ => ?_) (fun _ _ _ => rfl)
  · by_cases hm : (m : Nat) = i
    · simp [hm, ht]
    · simp [hm]
  · by_cases hm : (m : Nat) = i
    · simp [hm, ha]
    · simp [hm]

/-- A change to an inode's `size` moves no slot. -/
theorem slotVal_setSize (i : Nat) (sz : UInt32) :
    (s.setInode i { s.inodes i with size := sz }).slotVal sb = s.slotVal sb :=
  slotVal_setInode_same i rfl rfl

/-- Slots do not look at the log. -/
theorem slotVal_setBlock (b : Nat) (v : Block) :
    (s.setBlock b v).slotVal sb = (s.write b v).slotVal sb := rfl

theorem indirectEntry_setU32 (bp : Block) {j j' : Fin nindirect} {v : Nat} (hv : v < 2 ^ 32) :
    indirectEntry (bp.setU32 (4 * j) (UInt32.ofNat v)) j' =
      if j' = j then v else indirectEntry bp j' := by
  unfold indirectEntry
  by_cases hj : j' = j
  · subst hj
    have hfit : 4 * j'.val + 4 ≤ bsize := by
      have hj : j'.val < 256 := j'.isLt
      rw [bsize_eq]
      omega
    rw [if_pos rfl, Bytes.getU32_setU32_self _ hfit, UInt32.toNat_ofNat_of_lt' hv]
  · have hne : j'.val ≠ j.val := fun h => hj (Fin.ext h)
    rw [if_neg hj, Bytes.getU32_setU32_of_disjoint _ (by omega)]

/-- Storing entry `j` of allocated inode `i`'s indirect block, a block no
other allocated inode points at, moves that entry's slot alone. -/
theorem slotVal_setEntry {i : Fin sb.ninodes} {j : Fin nindirect} {v : Nat}
    (hi : (s.inodes i).type ≠ 0) (hp : (s.inodes i).ptr ≠ 0)
    (hother : ∀ i' : Fin sb.ninodes, i' ≠ i → (s.inodes i').type ≠ 0 →
      (s.inodes i').ptr ≠ (s.inodes i).ptr) (hv : v < 2 ^ 32) :
    (s.write (s.inodes i).ptr ((s.disk (s.inodes i).ptr).setU32 (4 * j) (UInt32.ofNat v))).slotVal sb =
      Function.update (s.slotVal sb) (i, Slot.entry j) v := by
  funext ⟨i', k⟩
  by_cases hii : i' = i
  · subst hii
    rw [slotVal_of_type i' k (by simpa using hi)]
    induction k using Fin.addCases with
    | left a =>
      have ha : Slot.addr a = Fin.castAdd nindirect a := rfl
      rw [← ha, Function.update_of_ne (by simp [DInode.entry_ne_addr j a |>.symm]),
        slotVal_of_type i' _ hi]
      simp
    | right j' =>
      have hj : Slot.entry j' = Fin.natAdd (ndirect + 1) j' := rfl
      rw [← hj, write_inodes, DInode.slot_entry, if_neg hp, write_disk, Function.update_self,
        indirectEntry_setU32 _ hv]
      by_cases hjj : j' = j
      · subst hjj
        simp
      · rw [if_neg hjj, Function.update_of_ne (by simp [DInode.entry_injective.eq_iff, hjj]),
          slotVal_of_type i' _ hi,
          DInode.slot_entry, if_neg hp]
  · rw [Function.update_of_ne (by simp [hii])]
    unfold slotVal
    by_cases ht : (s.inodes i').type = 0
    · simp [ht]
    · rw [write_inodes, if_neg ht, if_neg ht]
      refine DInode.slot_congr rfl (fun _ => ?_) k
      rw [write_disk, Function.update_of_ne (hother i' hii ht)]

end FsState

end Xv6.Kernel
