import Xv6.Kernel.Fs.Balloc
import Xv6.Lib.Reach

/-!
# The inode layer's block operations (`kernel/fs.c`)

`bmap` finds or allocates the block behind a file block number, `itrunc`
frees every block of an inode, `ialloc` takes a free on-disk inode, and
`readi`/`writei` move bytes between a file and a user buffer block by block,
allocating through `bmap` as they go.

The cached inode and the on-disk inode are merged into one record,
`FsState.inodes`. The merge is exact where a change to `addrs[]`, `size` or
`type` ends in `iupdate` within the same operation, as in `writei`, `itrunc`,
`ialloc` and the callers in `sysfile.c`. It is not exact for `readi`: where a
block below `size` has no address its `bmap` allocates one and sets `addrs[]`
with no `iupdate`, so the record shows a change the on-disk inode lacks and
the inode's block is not logged (`mkfs_root_unbacked`).

A user buffer is a function from byte offsets to bytes, `none` or `false`
where the address cannot be read or written; `copyin` and `copyout` stop at
the first such byte.
-/

namespace Xv6.Kernel

open Xv6.Lib

/-! ## `bmap` -/

/-- `if ((addr = ip->addrs[k]) == 0) { addr = balloc(ip->dev); if (addr == 0) return 0;
ip->addrs[k] = addr; }`: the block `addrs[k]` names, allocated if empty; `0`
when `balloc` fails. -/
def bmapAddr (sb : Superblock) (s : FsState) (inum : Nat) (k : Fin (ndirect + 1)) :
    Nat × FsState :=
  let ino := s.inodes inum
  let addr := (ino.addrs k).toNat
  if addr = 0 then
    let r := balloc sb s
    if r.1 = 0 then (0, r.2)
    else (r.1, r.2.setInode inum { ino with addrs := Function.update ino.addrs k (UInt32.ofNat r.1) })
  else (addr, s)

/-- Entry `j` of indirect block `ind`, allocated if empty. -/
def bmapEntry (sb : Superblock) (s : FsState) (ind j : Nat) : Nat × FsState :=
  let addr := indirectEntry (s.disk ind) j
  if addr = 0 then
    let r := balloc sb s
    if r.1 = 0 then (0, r.2)
    else (r.1, r.2.write ind ((r.2.disk ind).setU32 (4 * j) (UInt32.ofNat r.1)))
  else (addr, s)

/-- `bmap(ip, bn)`. -/
def bmap (sb : Superblock) (s : FsState) (inum bn : Nat) : Except String (Nat × FsState) :=
  if h : bn < ndirect then .ok (bmapAddr sb s inum ⟨bn, Nat.lt_succ_of_lt h⟩)
  else if bn - ndirect < nindirect then
    -- load the indirect block, allocating it if necessary
    let r := bmapAddr sb s inum (Fin.last ndirect)
    if r.1 = 0 then .ok r
    else .ok (bmapEntry sb r.2 r.1 (bn - ndirect))
  else .error "bmap: out of range"

/-! ## `itrunc` and the freeing branch of `iput` -/

/-- One pass of `itrunc`'s first loop: `if (ip->addrs[i]) { bfree(ip->dev,
ip->addrs[i]); ip->addrs[i] = 0; }`. -/
def itruncDirect (sb : Superblock) (inum : Nat) (s : FsState) (i : Nat) :
    Except String FsState :=
  let ino := s.inodes inum
  let k : Fin (ndirect + 1) := Fin.ofNat _ i
  let a := (ino.addrs k).toNat
  if a = 0 then .ok s
  else do
    let s ← bfree sb s a
    pure (s.setInode inum { ino with addrs := Function.update ino.addrs k 0 })

/-- One pass of the loop over the indirect block `bp`: `if (a[j]) bfree(ip->dev, a[j])`.
The entry itself is left as it is. -/
def itruncIndirect (sb : Superblock) (bp : Block) (s : FsState) (j : Nat) :
    Except String FsState :=
  let a := indirectEntry bp j
  if a = 0 then .ok s else bfree sb s a

/-- The indirect half of `itrunc`. -/
def itruncPtr (sb : Superblock) (s : FsState) (inum : Nat) : Except String FsState :=
  let ino := s.inodes inum
  if ino.ptr = 0 then .ok s
  else do
    let s ← (List.range nindirect).foldlM (itruncIndirect sb (s.disk ino.ptr)) s
    let s ← bfree sb s ino.ptr
    pure (s.setInode inum { ino with addrs := Function.update ino.addrs (Fin.last ndirect) 0 })

/-- `itrunc(ip)`. -/
def itrunc (sb : Superblock) (s : FsState) (inum : Nat) : Except String FsState := do
  let s ← (List.range ndirect).foldlM (itruncDirect sb inum) s
  let s ← itruncPtr sb s inum
  let ino := s.inodes inum
  pure ((s.setInode inum { ino with size := 0 }).iupdate sb inum)

/-- What `iput` does to the last reference of an inode with no links:
`itrunc(ip); ip->type = 0; iupdate(ip)`. -/
def ifree (sb : Superblock) (s : FsState) (inum : Nat) : Except String FsState := do
  let s ← itrunc sb s inum
  let ino := s.inodes inum
  pure ((s.setInode inum { ino with type := 0 }).iupdate sb inum)

/-! ## `ialloc` -/

/-- The scan of `ialloc` from inode `inum`, `k` passes left. -/
def iallocScan (sb : Superblock) (s : FsState) (inum : Nat) : Nat → Option Nat
  | 0 => none
  | k + 1 =>
    if inum < sb.ninodes then
      if (s.inodes inum).type = 0 then some inum else iallocScan sb s (inum + 1) k
    else none

/-- `ialloc(dev, type)`: the first free inode from `1`, cleared and given the
type; `0` when there is none. -/
def ialloc (sb : Superblock) (s : FsState) (type : Int) : Nat × FsState :=
  match iallocScan sb s 1 sb.ninodes with
  | none => (0, s)
  | some inum => (inum, (s.setInode inum (DInode.fresh type)).iupdate sb inum)

/-! ## `writei` and `readi` -/

/-- `either_copyin(bp->data + o, user_src, src + p, m)`: `false` when a byte
cannot be read, with the bytes before it copied. -/
def copyIn (src : Nat → Option UInt8) (bp : Block) (o p : Nat) : Nat → Block × Bool
  | 0 => (bp, true)
  | m + 1 =>
    match src p with
    | none => (bp, false)
    | some c => copyIn src (bp.set o c) (o + 1) (p + 1) m

/-- `either_copyout(user_dst, dst + p, bp->data + o, m)`: the bytes delivered,
and `false` when an address cannot be written. -/
def copyOut (dst : Nat → Bool) (bp : Block) (o p : Nat) : Nat → List UInt8 × Bool
  | 0 => ([], true)
  | m + 1 =>
    if dst p then
      let r := copyOut dst bp (o + 1) (p + 1) m
      (bp.get o :: r.1, r.2)
    else ([], false)

/-- The loop of `writei`, from `tot` bytes written at offset `off`. Every pass
moves at least one byte, so `n` passes finish it. -/
def writeiLoop (sb : Superblock) (inum : Nat) (src : Nat → Option UInt8) (n : UInt32) :
    FsState → UInt32 → UInt32 → Nat → Except String (UInt32 × UInt32 × FsState)
  | s, tot, off, 0 => .ok (tot, off, s)
  | s, tot, off, fuel + 1 =>
    if tot < n then
      match bmap sb s inum (off / UInt32.ofNat bsize).toNat with
      | .error e => .error e
      | .ok (addr, s) =>
        if addr = 0 then .ok (tot, off, s)
        else
          let m := min (n - tot) (UInt32.ofNat bsize - off % UInt32.ofNat bsize)
          let r := copyIn src (s.disk addr) (off % UInt32.ofNat bsize).toNat tot.toNat m.toNat
          -- a failed copy leaves the bytes it moved in the cached block, unlogged
          if r.2 then writeiLoop sb inum src n (s.write addr r.1) (tot + m) (off + m) fuel
          else .ok (tot, off, s.setBlock addr r.1)
    else .ok (tot, off, s)

/-- `writei(ip, user_src, src, off, n)`. -/
def writei (sb : Superblock) (s : FsState) (inum : Nat) (src : Nat → Option UInt8)
    (off n : UInt32) : Except String (Int × FsState) :=
  let ino := s.inodes inum
  if off > ino.size ∨ off + n < off then .ok (-1, s)
  else if (off + n).toNat > maxfile * bsize then .ok (-1, s)
  else do
    let (tot, off, s) ← writeiLoop sb inum src n s 0 off n.toNat
    let ino := s.inodes inum
    let s := if off > ino.size then s.setInode inum { ino with size := off } else s
    -- written back even if the size did not change: `bmap` may have filled `addrs[]`
    pure (tot.toNat, s.iupdate sb inum)

/-- The loop of `readi`, from `tot` bytes read at offset `off`; `-1` when a
copy out fails. -/
def readiLoop (sb : Superblock) (inum : Nat) (dst : Nat → Bool) (n : UInt32) :
    FsState → UInt32 → UInt32 → List UInt8 → Nat → Except String (Int × List UInt8 × FsState)
  | s, tot, _, out, 0 => .ok (tot.toNat, out, s)
  | s, tot, off, out, fuel + 1 =>
    if tot < n then
      match bmap sb s inum (off / UInt32.ofNat bsize).toNat with
      | .error e => .error e
      | .ok (addr, s) =>
        if addr = 0 then .ok (tot.toNat, out, s)
        else
          let m := min (n - tot) (UInt32.ofNat bsize - off % UInt32.ofNat bsize)
          let r := copyOut dst (s.disk addr) (off % UInt32.ofNat bsize).toNat tot.toNat m.toNat
          if r.2 then readiLoop sb inum dst n s (tot + m) (off + m) (out ++ r.1) fuel
          else .ok (-1, out ++ r.1, s)
    else .ok (tot.toNat, out, s)

/-- `readi(ip, user_dst, dst, off, n)`: the count, the bytes delivered, and
the state (`bmap` may allocate even here). -/
def readi (sb : Superblock) (s : FsState) (inum : Nat) (dst : Nat → Bool) (off n : UInt32) :
    Except String (Int × List UInt8 × FsState) :=
  let ino := s.inodes inum
  if off > ino.size ∨ off + n < off then .ok (0, [], s)
  else
    let n := if off + n > ino.size then ino.size - off else n
    readiLoop sb inum dst n s 0 off [] n.toNat

/-! ## What the operations do to the allocator's invariant

Each operation is run from a state of `BlockInv` on an allocated inode `i`
(`ilock` panics on a free one). Every spec says the invariant holds after it
and that no inode changed its type; `bmap`'s also says which slot now holds
the block it returns, a data slot and never the indirect pointer, which is
what lets `writei` write that block without moving any slot. -/

section Spec

variable {sb : Superblock} {s : FsState} {i : Fin sb.ninodes}

theorem toNat_ofNat_of_lt_size (hwf : sb.Wf) {x : Nat} (hx : x < sb.size) :
    (UInt32.ofNat x).toNat = x :=
  UInt32.toNat_ofNat_of_lt' (by have := hwf.size_lt; show x < 4294967296; omega)

/-- A write to a block a data slot holds, logged or not, keeps the invariant. -/
theorem BlockInv.write_held (hwf : sb.Wf) (hinv : BlockInv sb s) {p : Fin sb.ninodes × Slot}
    (hq : p.2 ≠ Slot.ptr) (hx0 : s.slotVal sb p ≠ 0) (v : Block) :
    BlockInv sb (s.write (s.slotVal sb p) v) ∧ BlockInv sb (s.setBlock (s.slotVal sb p) v) := by
  have hlo := (hinv.owned.inside p hx0).1
  have hd : ∀ z, z ≠ s.slotVal sb p → Function.update s.disk (s.slotVal sb p) v z = s.disk z :=
    fun z hz => Function.update_of_ne hz _ _
  have hslot : (s.write (s.slotVal sb p) v).slotVal sb = s.slotVal sb :=
    FsState.slotVal_of_held hinv.owned hq rfl hd
  exact ⟨hinv.congr hslot (fun y hy => FsState.used_of_ge hwf hlo hd hy),
    hinv.congr hslot (fun y hy => FsState.used_of_ge hwf hlo hd hy)⟩

theorem bmapAddr_spec (hwf : sb.Wf) (hinv : BlockInv sb s) (hi : (s.inodes i).type ≠ 0)
    (k : Fin (ndirect + 1)) :
    BlockInv sb (bmapAddr sb s i k).2 ∧
      (∀ n, ((bmapAddr sb s i k).2.inodes n).type = (s.inodes n).type) ∧
      ((bmapAddr sb s i k).1 ≠ 0 →
        (bmapAddr sb s i k).2.slotVal sb (i, Slot.addr k) = (bmapAddr sb s i k).1) := by
  have hval : s.slotVal sb (i, Slot.addr k) = ((s.inodes i).addrs k).toNat := by
    rw [FsState.slotVal_of_type i _ hi, DInode.slot_addr]
  unfold bmapAddr
  by_cases h0 : ((s.inodes i).addrs k).toNat = 0
  · rw [if_pos h0]
    cases hb : balloc sb s with
    | mk x s' =>
      rcases balloc_cases hwf hinv hb with ⟨rfl, rfl⟩ | ⟨hlo, hhi, -, -, hinodes, hzero, hslot'⟩
      · exact ⟨hinv, fun _ => rfl, fun h => absurd rfl h⟩
      have hx : x ≠ 0 := by have := hinv.owned.lo_pos; omega
      have hxv : (UInt32.ofNat x).toNat = x := toNat_ofNat_of_lt_size hwf hhi
      simp only [if_neg hx]
      -- the record with `addrs[k]` filled, and its slots
      have hi' : (s'.inodes i).type ≠ 0 := by rw [hinodes]; exact hi
      have hslot : (s'.setInode i { s.inodes i with
          addrs := Function.update (s.inodes i).addrs k (UInt32.ofNat x) }).slotVal sb =
          Function.update (s'.slotVal sb) (i, Slot.addr k) x := by
        refine FsState.slotVal_setInode hi' hi fun q => ?_
        rw [DInode.slot_fill h0 (fun _ j => by rw [hxv, hzero]; simp [indirectEntry]) q, hxv,
          hinodes]
      refine ⟨BlockInv.enter hwf hinv hb hx (by rw [hval, h0]) hslot (fun _ _ => rfl),
        fun n => ?_, fun _ => by rw [hslot, Function.update_self]⟩
      by_cases hn : n = i
      · subst hn
        simp
      · simp [Function.update_of_ne hn, hinodes]
  · rw [if_neg h0]
    exact ⟨hinv, fun _ => rfl, fun _ => hval⟩

theorem bmapEntry_spec (hwf : sb.Wf) (hinv : BlockInv sb s) (hi : (s.inodes i).type ≠ 0)
    (hp : (s.inodes i).ptr ≠ 0) (j : Fin nindirect) :
    BlockInv sb (bmapEntry sb s (s.inodes i).ptr j).2 ∧
      (bmapEntry sb s (s.inodes i).ptr j).2.inodes = s.inodes ∧
      ((bmapEntry sb s (s.inodes i).ptr j).1 ≠ 0 →
        (bmapEntry sb s (s.inodes i).ptr j).2.slotVal sb (i, Slot.entry j) =
          (bmapEntry sb s (s.inodes i).ptr j).1) := by
  have hval : s.slotVal sb (i, Slot.entry j) = indirectEntry (s.disk (s.inodes i).ptr) j := by
    rw [FsState.slotVal_of_type i _ hi, DInode.slot_entry, if_neg hp]
  unfold bmapEntry
  by_cases h0 : indirectEntry (s.disk (s.inodes i).ptr) j = 0
  · rw [if_pos h0]
    cases hb : balloc sb s with
    | mk x s' =>
      rcases balloc_cases hwf hinv hb with ⟨rfl, rfl⟩ | ⟨hlo, hhi, -, -, hinodes, -, hslot'⟩
      · exact ⟨hinv, rfl, fun h => absurd rfl h⟩
      have hx : x ≠ 0 := by have := hinv.owned.lo_pos; omega
      simp only [if_neg hx]
      -- no other allocated inode shares the indirect block
      have hother : ∀ i' : Fin sb.ninodes, i' ≠ i → (s'.inodes i').type ≠ 0 →
          (s'.inodes i').ptr ≠ (s'.inodes i).ptr := by
        rw [hinodes]
        exact FsState.ptr_unique hinv.owned hi hp
      have hslot : FsState.slotVal sb _ = Function.update (s'.slotVal sb) (i, Slot.entry j) x :=
        FsState.slotVal_setEntry (s := s') (by rw [hinodes]; exact hi)
          (by rw [hinodes]; exact hp) hother (by have := hwf.size_lt; omega)
      rw [hinodes] at hslot
      have hptr := (hinv.ptr_mem hi hp).1
      exact ⟨BlockInv.enter hwf hinv hb hx (by rw [hval, h0]) hslot
          (fun y hy => FsState.used_write_of_ge hwf hptr _ hy),
        hinodes, fun _ => by rw [hslot, Function.update_self]⟩
  · rw [if_neg h0]
    exact ⟨hinv, rfl, fun _ => hval⟩

theorem bmap_spec (hwf : sb.Wf) (hinv : BlockInv sb s) (hi : (s.inodes i).type ≠ 0)
    {bn a : Nat} {s' : FsState} (h : bmap sb s i bn = .ok (a, s')) :
    BlockInv sb s' ∧ (∀ n, (s'.inodes n).type = (s.inodes n).type) ∧
      (a ≠ 0 → ∃ q, q ≠ Slot.ptr ∧ s'.slotVal sb (i, q) = a) := by
  unfold bmap at h
  dsimp only at h
  split_ifs at h with hd hind hr0
  · -- a direct block
    injection h with h
    obtain ⟨hinv', htype, hslot⟩ := bmapAddr_spec hwf hinv hi ⟨bn, Nat.lt_succ_of_lt hd⟩
    rw [h] at hinv' htype hslot
    refine ⟨hinv', htype, fun ha => ⟨_, fun heq => ?_, hslot ha⟩⟩
    have := congrArg Fin.val (DInode.addr_injective heq)
    simp only [Fin.val_last] at this
    omega
  · -- the indirect block could not be allocated
    injection h with h
    obtain ⟨hinv', htype, -⟩ := bmapAddr_spec hwf hinv hi (Fin.last ndirect)
    rw [h] at hinv' htype hr0
    exact ⟨hinv', htype, fun ha => absurd hr0 ha⟩
  · -- an entry of the indirect block
    injection h with h
    obtain ⟨hinv₁, htype₁, hslot₁⟩ := bmapAddr_spec hwf hinv hi (Fin.last ndirect)
    set r := bmapAddr sb s i (Fin.last ndirect)
    have hi₁ : (r.2.inodes i).type ≠ 0 := by rw [htype₁]; exact hi
    have hptr : (r.2.inodes i).ptr = r.1 := by
      rw [← FsState.slotVal_ptr i hi₁]
      exact hslot₁ hr0
    obtain ⟨hinv', hinodes, hslot⟩ :=
      bmapEntry_spec hwf hinv₁ hi₁ (by rw [hptr]; exact hr0) ⟨bn - ndirect, hind⟩
    rw [hptr, h] at hinv' hinodes hslot
    refine ⟨hinv', fun n => by rw [hinodes, htype₁], fun ha => ⟨_, ?_, hslot ha⟩⟩
    exact DInode.entry_ne_addr _ _

theorem writeiLoop_spec (hwf : sb.Wf) (src : Nat → Option UInt8) (n : UInt32) (fuel : Nat) :
    ∀ {s : FsState} {tot off : UInt32} {r : UInt32 × UInt32 × FsState},
      BlockInv sb s → (s.inodes i).type ≠ 0 → writeiLoop sb i src n s tot off fuel = .ok r →
      BlockInv sb r.2.2 ∧ ∀ m, (r.2.2.inodes m).type = (s.inodes m).type := by
  induction fuel with
  | zero =>
    intro s tot off r hinv _ h
    cases h
    exact ⟨hinv, fun _ => rfl⟩
  | succ fuel ih =>
    intro s tot off r hinv hi h
    unfold writeiLoop at h
    split_ifs at h with htot
    · split at h
      · cases h
      · rename_i addr s₁ hbmap
        obtain ⟨hinv₁, htype₁, hslot₁⟩ := bmap_spec hwf hinv hi hbmap
        dsimp only at h
        split_ifs at h with haddr hok
        · cases h
          exact ⟨hinv₁, htype₁⟩
        · -- the block is written and logged, and the loop goes on
          obtain ⟨q, hq, hval⟩ := hslot₁ haddr
          have hw := hinv₁.write_held hwf hq (by rw [hval]; exact haddr)
          rw [hval] at hw
          obtain ⟨hinv', htype'⟩ := ih (hw _).1 (by simp [htype₁, hi]) h
          exact ⟨hinv', fun m => by rw [htype', FsState.write_inodes, htype₁]⟩
        · -- a failed copy: the cached block changed, nothing logged
          cases h
          obtain ⟨q, hq, hval⟩ := hslot₁ haddr
          have hw := hinv₁.write_held hwf hq (by rw [hval]; exact haddr)
          rw [hval] at hw
          exact ⟨(hw _).2, fun m => by rw [FsState.setBlock_inodes, htype₁]⟩
    · cases h
      exact ⟨hinv, fun _ => rfl⟩

theorem writei_spec (hwf : sb.Wf) (hinv : BlockInv sb s) (hi : (s.inodes i).type ≠ 0)
    {src : Nat → Option UInt8} {off n : UInt32} {v : Int} {s' : FsState}
    (h : writei sb s i src off n = .ok (v, s')) :
    BlockInv sb s' ∧ ∀ m, (s'.inodes m).type = (s.inodes m).type := by
  unfold writei at h
  dsimp only at h
  split_ifs at h with hbad hbig
  · cases h
    exact ⟨hinv, fun _ => rfl⟩
  · cases h
    exact ⟨hinv, fun _ => rfl⟩
  · cases hl : writeiLoop sb i src n s 0 off n.toNat with
    | error e => simp [hl, bind, Except.bind] at h
    | ok r =>
      obtain ⟨tot, off', s₁⟩ := r
      obtain ⟨hinv₁, htype₁⟩ := writeiLoop_spec hwf src n n.toNat hinv hi hl
      simp only [hl, bind, Except.bind, pure, Except.pure] at h
      injection h with h
      injection h with hv hs
      subst hs
      simp only at hinv₁ htype₁
      -- growing `size` moves no slot
      have hsize : BlockInv sb (s₁.setInode i { s₁.inodes i with size := off' }) :=
        hinv₁.congr (FsState.slotVal_setSize _ _) (fun _ _ => rfl)
      have htype₂ : ∀ m, ((s₁.setInode i { s₁.inodes i with size := off' }).inodes m).type =
          (s.inodes m).type := by
        intro m
        by_cases hm : m = (i : Nat)
        · subst hm
          simp [htype₁]
        · simp [Function.update_of_ne hm, htype₁]
      split_ifs
      · exact ⟨hsize.iupdate _, fun m => by rw [FsState.iupdate_inodes, htype₂]⟩
      · exact ⟨hinv₁.iupdate _, fun m => by rw [FsState.iupdate_inodes, htype₁]⟩

theorem readiLoop_spec (hwf : sb.Wf) (dst : Nat → Bool) (n : UInt32) (fuel : Nat) :
    ∀ {s : FsState} {tot off : UInt32} {out : List UInt8} {r : Int × List UInt8 × FsState},
      BlockInv sb s → (s.inodes i).type ≠ 0 → readiLoop sb i dst n s tot off out fuel = .ok r →
      BlockInv sb r.2.2 ∧ ∀ m, (r.2.2.inodes m).type = (s.inodes m).type := by
  induction fuel with
  | zero =>
    intro s tot off out r hinv _ h
    cases h
    exact ⟨hinv, fun _ => rfl⟩
  | succ fuel ih =>
    intro s tot off out r hinv hi h
    unfold readiLoop at h
    split_ifs at h with htot
    · split at h
      · cases h
      · rename_i addr s₁ hbmap
        obtain ⟨hinv₁, htype₁, -⟩ := bmap_spec hwf hinv hi hbmap
        dsimp only at h
        split_ifs at h with haddr hok
        · cases h
          exact ⟨hinv₁, htype₁⟩
        · obtain ⟨hinv', htype'⟩ := ih hinv₁ (by rw [htype₁]; exact hi) h
          exact ⟨hinv', fun m => by rw [htype', htype₁]⟩
        · cases h
          exact ⟨hinv₁, htype₁⟩
    · cases h
      exact ⟨hinv, fun _ => rfl⟩

theorem readi_spec (hwf : sb.Wf) (hinv : BlockInv sb s) (hi : (s.inodes i).type ≠ 0)
    {dst : Nat → Bool} {off n : UInt32} {r : Int × List UInt8 × FsState}
    (h : readi sb s i dst off n = .ok r) :
    BlockInv sb r.2.2 ∧ ∀ m, (r.2.2.inodes m).type = (s.inodes m).type := by
  unfold readi at h
  dsimp only at h
  split_ifs at h with hbad hlong
  · cases h
    exact ⟨hinv, fun _ => rfl⟩
  · exact readiLoop_spec hwf dst _ _ hinv hi h
  · exact readiLoop_spec hwf dst _ _ hinv hi h

/-! ### Files whose blocks are all there

`bmap` allocates only where the address it reads is `0`. An inode is backed
when every block below its size has an address, so that `readi` need not
allocate: it then may run outside a transaction, as `fileread` runs it. -/

/-- The address `bmap(ip, bn)` reads before it decides to allocate: `addrs[bn]`
below `NDIRECT`, else entry `bn - NDIRECT` of the indirect block; `0` where
`bmap` would call `balloc`. -/
def DInode.blockAddr (d : Nat → Block) (ino : DInode) (bn : Nat) : Nat :=
  if h : bn < ndirect then (ino.addrs ⟨bn, Nat.lt_succ_of_lt h⟩).toNat
  else if ino.ptr = 0 then 0 else indirectEntry (d ino.ptr) (bn - ndirect)

/-- Inode `inum` is backed below its size: it fits in `MAXFILE` blocks and
`bmap` finds an address for every block index below `ceil(size / BSIZE)`. -/
def FsState.Backed (s : FsState) (inum : Nat) : Prop :=
  (s.inodes inum).size.toNat ≤ maxfile * bsize ∧
    ∀ bn, bn < ((s.inodes inum).size.toNat + bsize - 1) / bsize →
      (s.inodes inum).blockAddr s.disk bn ≠ 0

instance (s : FsState) (inum : Nat) : Decidable (s.Backed inum) := by
  unfold FsState.Backed
  infer_instance

/-! ### `itrunc`

The first loop frees `addrs[i]` and clears it in one pass, an `Owned.leave`.
The second frees every entry of the indirect block but clears none: between
its passes the bits of the freed entries are clear while the entries still
name them. Its invariant is stated over `dropEntries`, the slots with the
entries already freed emptied; clearing the pointer at the end empties the
real slots to match. -/

/-- The slots with the first `j` entries of inode `i`'s indirect block emptied. -/
def dropEntries {n : Nat} (f : Fin n × Slot → Nat) (i : Fin n) (j : Nat) : Fin n × Slot → Nat :=
  fun p => if p.1 = i ∧ ndirect + 1 ≤ p.2.val ∧ p.2.val < ndirect + 1 + j then 0 else f p

section DropEntries

variable {n : Nat} (f : Fin n × Slot → Nat) (i : Fin n)

theorem dropEntries_zero : dropEntries f i 0 = f := by
  funext p
  simp only [dropEntries]
  split_ifs with h
  · omega
  · rfl

theorem dropEntries_succ {j : Nat} (hj : j < nindirect) :
    dropEntries f i (j + 1) = Function.update (dropEntries f i j) (i, Slot.entry ⟨j, hj⟩) 0 := by
  funext ⟨i', q⟩
  rw [Function.update_apply]
  by_cases hq : (i', q) = (i, Slot.entry ⟨j, hj⟩)
  · rw [if_pos hq]
    obtain ⟨rfl, rfl⟩ := Prod.mk.inj hq
    simp [dropEntries, Slot.entry]
  · rw [if_neg hq]
    have hval : ¬(i' = i ∧ q.val = ndirect + 1 + j) := by
      rintro ⟨rfl, hv⟩
      exact hq (by rw [Prod.mk.injEq]; exact ⟨rfl, Fin.ext (by simp [Slot.entry, hv])⟩)
    simp only [dropEntries]
    split_ifs <;> omega

theorem dropEntries_of_le {j : Nat} (j' : Fin nindirect) (hj : j ≤ j') :
    dropEntries f i j (i, Slot.entry j') = f (i, Slot.entry j') := by
  simp only [dropEntries, Slot.entry, Fin.val_natAdd]
  rw [if_neg (by omega)]

theorem dropEntries_addr (j : Nat) (i' : Fin n) (k : Fin (ndirect + 1)) :
    dropEntries f i j (i', Slot.addr k) = f (i', Slot.addr k) := by
  unfold dropEntries
  split_ifs with h
  · obtain ⟨-, h1, -⟩ := h
    have hv : ((i', Slot.addr k).2).val = k.val := rfl
    have := k.isLt
    omega
  · rfl

theorem update_dropEntries_all :
    Function.update (dropEntries f i nindirect) (i, Slot.ptr) 0 =
      fun p => if p.1 = i ∧ ndirect ≤ p.2.val then 0 else f p := by
  funext ⟨i', q⟩
  rw [Function.update_apply]
  have hq := q.isLt
  have hptr : (Slot.ptr).val = ndirect := by simp [Slot.ptr, Slot.addr]
  by_cases hp : (i', q) = (i, Slot.ptr)
  · obtain ⟨rfl, rfl⟩ := Prod.mk.inj hp
    simp [hptr]
  · rw [if_neg hp]
    have hne : ¬(i' = i ∧ q.val = ndirect) := by
      rintro ⟨rfl, hv⟩
      exact hp (by rw [Prod.mk.injEq]; exact ⟨rfl, Fin.ext (by rw [hv, hptr])⟩)
    simp only [dropEntries]
    split_ifs <;> omega

end DropEntries

theorem itruncDirect_spec (hwf : sb.Wf) (hinv : BlockInv sb s) (hi : (s.inodes i).type ≠ 0)
    {j : Nat} (hj : j < ndirect) :
    ∃ s', itruncDirect sb i s j = .ok s' ∧ BlockInv sb s' ∧
      (∀ m, (s'.inodes m).type = (s.inodes m).type) ∧
      (s'.inodes i).addrs (Fin.ofNat _ j) = 0 ∧
      ∀ k, k ≠ Fin.ofNat _ j → (s'.inodes i).addrs k = (s.inodes i).addrs k := by
  set k : Fin (ndirect + 1) := Fin.ofNat _ j
  have hk : k ≠ Fin.last ndirect := by
    intro h
    have := congrArg Fin.val h
    simp only [k, Fin.val_ofNat, Fin.val_last] at this
    rw [Nat.mod_eq_of_lt (by omega)] at this
    omega
  have hval : s.slotVal sb (i, Slot.addr k) = ((s.inodes i).addrs k).toNat := by
    rw [FsState.slotVal_of_type i _ hi, DInode.slot_addr]
  unfold itruncDirect
  dsimp only
  by_cases ha : ((s.inodes i).addrs k).toNat = 0
  · refine ⟨s, by rw [if_pos ha], hinv, fun _ => rfl, ?_, fun _ _ => rfl⟩
    exact UInt32.toNat_inj.mp ha
  · -- free the block, then clear the slot: the allocator's `leave` move
    have hheld : s.slotVal sb (i, Slot.addr k) ≠ 0 := by rw [hval]; exact ha
    have hused := hinv.owned.used_of_held hheld
    have hlt := (hinv.owned.inside _ hheld).2
    rw [hval] at hused hlt
    obtain ⟨t, hok, hbits, hinodes, hdisk⟩ := bfree_ok hwf hlt hused
    have hslot_t : t.slotVal sb = s.slotVal sb :=
      FsState.slotVal_of_disk_ge hinodes hdisk fun i' hi' hp' => (hinv.ptr_mem hi' hp').1
    have hi_t : (t.inodes i).type ≠ 0 := by rw [hinodes]; exact hi
    have hslot : (t.setInode i { s.inodes i with
        addrs := Function.update (s.inodes i).addrs k 0 }).slotVal sb =
        Function.update (s.slotVal sb) (i, Slot.addr k) 0 := by
      rw [← hslot_t]
      refine FsState.slotVal_setInode hi_t hi fun q => ?_
      rw [DInode.slot_setAddr hk, hinodes]
      rfl
    have hown := hinv.owned.leave hheld
    rw [hval] at hown
    refine ⟨_, by rw [if_neg ha, hok]; rfl, ⟨fun b hb => ?_, ?_⟩, fun m => ?_,
      by rw [FsState.setInode_inodes, Function.update_self]; exact Function.update_self _ _ _,
      fun k' hk' => by
        rw [FsState.setInode_inodes, Function.update_self]; exact Function.update_of_ne hk' _ _⟩
    · have hbs : b < sb.size := by have := sb.dstart_le; omega
      have hge := (hinv.owned.inside _ hheld).1
      rw [hval] at hge
      show t.used sb b = true
      rw [hbits, Function.update_of_ne (by omega)]
      exact hinv.reserved b hb
    · rw [hslot]
      exact hown.congr_bits fun y _ _ => hbits y
    · by_cases hm : m = (i : Nat)
      · subst hm
        simp
      · simp [Function.update_of_ne hm, hinodes]

theorem itruncPtr_spec (hwf : sb.Wf) (hinv : BlockInv sb s) (hi : (s.inodes i).type ≠ 0) :
    ∃ s', itruncPtr sb s i = .ok s' ∧ BlockInv sb s' ∧
      (∀ m, (s'.inodes m).type = (s.inodes m).type) ∧ (s'.inodes i).ptr = 0 ∧
      ∀ k, k ≠ Fin.last ndirect → (s'.inodes i).addrs k = (s.inodes i).addrs k := by
  unfold itruncPtr
  by_cases hp : (s.inodes i).ptr = 0
  · exact ⟨s, by rw [if_pos hp], hinv, fun _ => rfl, hp, fun _ _ => rfl⟩
  rw [if_neg hp]
  have hge : ∀ i' : Fin sb.ninodes, (s.inodes i').type ≠ 0 → (s.inodes i').ptr ≠ 0 →
      sb.dstart ≤ (s.inodes i').ptr := fun i' hi' hp' => (hinv.ptr_mem hi' hp').1
  -- the loop over the indirect block: entries freed, slots not yet emptied
  obtain ⟨t, hloop, hinodes, hdisk, hres, hown⟩ :=
    foldlM_range_inv (f := itruncIndirect sb (s.disk (s.inodes i).ptr))
      (P := fun j (t : FsState) => t.inodes = s.inodes ∧
      (∀ z, sb.dstart ≤ z → t.disk z = s.disk z) ∧ (∀ b < sb.dstart, t.used sb b = true) ∧
      Owned (dropEntries (s.slotVal sb) i j) (t.used sb) sb.dstart sb.size) nindirect
      (fun j hj t ⟨hinodes, hdisk, hres, hown⟩ => by
        have hfa : dropEntries (s.slotVal sb) i j (i, Slot.entry ⟨j, hj⟩) =
            indirectEntry (s.disk (s.inodes i).ptr) j := by
          rw [dropEntries_of_le (s.slotVal sb) i _ (Nat.le_refl j), FsState.slotVal_of_type i _ hi,
            DInode.slot_entry, if_neg hp]
        unfold itruncIndirect
        by_cases ha : indirectEntry (s.disk (s.inodes i).ptr) j = 0
        · refine ⟨t, by rw [if_pos ha], hinodes, hdisk, hres, ?_⟩
          rw [dropEntries_succ (s.slotVal sb) i hj]
          exact hown.update_zero (by rw [hfa, ha])
        · rw [if_neg ha]
          have hheld : dropEntries (s.slotVal sb) i j (i, Slot.entry ⟨j, hj⟩) ≠ 0 := by rw [hfa]; exact ha
          have hused := hown.used_of_held hheld
          have hin := hown.inside _ hheld
          rw [hfa] at hused hin
          obtain ⟨t', hok, hbits, hinodes', hdisk'⟩ := bfree_ok hwf hin.2 hused
          refine ⟨t', hok, by rw [hinodes', hinodes], fun z hz => by rw [hdisk' z hz, hdisk z hz],
            fun b hb => ?_, ?_⟩
          · rw [hbits, Function.update_of_ne (by omega)]
            exact hres b hb
          · have hleave := hown.leave hheld
            rw [hfa] at hleave
            rw [dropEntries_succ (s.slotVal sb) i hj]
            exact hleave.congr_bits fun y _ _ => hbits y)
      ⟨rfl, fun _ _ => rfl, hinv.reserved, by rw [dropEntries_zero]; exact hinv.owned⟩
  -- then the indirect block itself
  have hptr : dropEntries (s.slotVal sb) i nindirect (i, Slot.ptr) = (s.inodes i).ptr := by
    rw [Slot.ptr, dropEntries_addr, ← Slot.ptr, FsState.slotVal_ptr i hi]
  have hheld : dropEntries (s.slotVal sb) i nindirect (i, Slot.ptr) ≠ 0 := by rw [hptr]; exact hp
  have hused := hown.used_of_held hheld
  have hin := hown.inside _ hheld
  rw [hptr] at hused hin
  obtain ⟨t₂, hok, hbits, hinodes₂, hdisk₂⟩ := bfree_ok hwf hin.2 hused
  have hslot₂ : t₂.slotVal sb = s.slotVal sb :=
    FsState.slotVal_of_disk_ge (by rw [hinodes₂, hinodes])
      (fun z hz => by rw [hdisk₂ z hz, hdisk z hz]) hge
  have hi₂ : (t₂.inodes i).type ≠ 0 := by rw [hinodes₂, hinodes]; exact hi
  have hrec : t₂.inodes i = s.inodes i := by rw [hinodes₂, hinodes]
  have hslot₃ : FsState.slotVal sb _ = _ := FsState.slotVal_clearPtr hi₂
  rw [hrec, hslot₂, ← update_dropEntries_all] at hslot₃
  have hleave := hown.leave hheld
  rw [hptr] at hleave
  simp only [hloop, hok, bind, Except.bind, pure, Except.pure]
  refine ⟨_, rfl, ⟨fun b hb => ?_, ?_⟩, fun m => ?_, by simp [DInode.ptr], ?_⟩
  · show t₂.used sb b = true
    rw [hbits, Function.update_of_ne (by omega)]
    exact hres b hb
  · rw [hslot₃]
    exact hleave.congr_bits fun y _ _ => hbits y
  · by_cases hm : m = (i : Nat)
    · subst hm
      simp
    · simp [Function.update_of_ne hm, hinodes₂, hinodes]
  · intro k hk
    simp [Function.update_of_ne hk]

theorem itrunc_spec (hwf : sb.Wf) (hinv : BlockInv sb s) (hi : (s.inodes i).type ≠ 0) :
    ∃ s', itrunc sb s i = .ok s' ∧ BlockInv sb s' ∧
      (∀ m, (s'.inodes m).type = (s.inodes m).type) ∧ ∀ q, s'.slotVal sb (i, q) = 0 := by
  -- the direct loop: after `j` passes, `addrs[0..j)` are zero
  obtain ⟨t, hloop, hinv₁, htype₁, hzero₁⟩ :=
    foldlM_range_inv (P := fun j t => BlockInv sb t ∧ (∀ m, (t.inodes m).type = (s.inodes m).type) ∧
      ∀ j' < j, (t.inodes i).addrs (Fin.ofNat _ j') = 0) ndirect
      (fun j hj t ⟨hinv, htype, hzero⟩ => by
        obtain ⟨t', hok, hinv', htype', hj', hother⟩ :=
          itruncDirect_spec hwf hinv (by rw [htype]; exact hi) hj
        refine ⟨t', hok, hinv', fun m => by rw [htype', htype], fun j' hj'' => ?_⟩
        by_cases hjj : j' = j
        · subst hjj
          exact hj'
        · have hne : (Fin.ofNat (ndirect + 1) j') ≠ Fin.ofNat _ j := by
            intro h
            have := congrArg Fin.val h
            simp only [Fin.val_ofNat] at this
            rw [Nat.mod_eq_of_lt (by omega), Nat.mod_eq_of_lt (by omega)] at this
            exact hjj this
          rw [hother _ hne]
          exact hzero j' (by omega))
      ⟨hinv, fun _ => rfl, fun _ h => absurd h (Nat.not_lt_zero _)⟩
  obtain ⟨t₂, hptr, hinv₂, htype₂, hp₂, hother₂⟩ :=
    itruncPtr_spec hwf hinv₁ (by rw [htype₁]; exact hi)
  unfold itrunc
  simp only [hloop, hptr, bind, Except.bind, pure, Except.pure]
  refine ⟨_, rfl, (hinv₂.congr (FsState.slotVal_setSize _ _) (fun _ _ => rfl)).iupdate _,
    fun m => ?_, fun q => FsState.slotVal_of_addrs_zero (fun k => ?_) q⟩
  · by_cases hm : m = (i : Nat)
    · subst hm
      simp [htype₂, htype₁]
    · simp [Function.update_of_ne hm, htype₂, htype₁]
  · simp only [FsState.iupdate_inodes, FsState.setInode_inodes, Function.update_self]
    by_cases hk : k = Fin.last ndirect
    · subst hk
      exact UInt32.toNat_inj.mp hp₂
    · rw [hother₂ k hk]
      have hkv : k.val < ndirect := Fin.val_lt_last hk
      have := hzero₁ k.val hkv
      rwa [Fin.ofNat_val_eq_self] at this

theorem ifree_spec (hwf : sb.Wf) (hinv : BlockInv sb s) (hi : (s.inodes i).type ≠ 0) :
    ∃ s', ifree sb s i = .ok s' ∧ BlockInv sb s' ∧ (s'.inodes i).type = 0 ∧
      ∀ m : Nat, m ≠ i → (s'.inodes m).type = (s.inodes m).type := by
  obtain ⟨t, htr, hinv₁, htype₁, hzero₁⟩ := itrunc_spec hwf hinv hi
  unfold ifree
  simp only [htr, bind, Except.bind, pure, Except.pure]
  refine ⟨_, rfl, (hinv₁.congr (FsState.slotVal_setInode_of_zero hzero₁ (.inl rfl))
    (fun _ _ => rfl)).iupdate _, by simp, fun m hm => ?_⟩
  simp [Function.update_of_ne hm, htype₁]

theorem iallocScan_some {inum k r : Nat} (h : iallocScan sb s inum k = some r) :
    r < sb.ninodes ∧ (s.inodes r).type = 0 := by
  induction k generalizing inum with
  | zero => cases h
  | succ k ih =>
    unfold iallocScan at h
    split_ifs at h with hlt h0
    · cases h
      exact ⟨hlt, h0⟩
    · exact ih h

theorem ialloc_spec (hinv : BlockInv sb s) (type : Int) :
    BlockInv sb (ialloc sb s type).2 ∧
      ∀ m, m ≠ (ialloc sb s type).1 → ((ialloc sb s type).2.inodes m).type = (s.inodes m).type := by
  unfold ialloc
  split
  · exact ⟨hinv, fun _ _ => rfl⟩
  · rename_i inum hscan
    obtain ⟨hlt, h0⟩ := iallocScan_some hscan
    have hbefore : ∀ q, s.slotVal sb (⟨inum, hlt⟩, q) = 0 := fun q => by
      simp [FsState.slotVal, h0]
    refine ⟨(hinv.congr (FsState.slotVal_setInode_of_zero (i := ⟨inum, hlt⟩) hbefore
      (.inr fun _ => rfl)) (fun _ _ => rfl)).iupdate _, fun m hm => ?_⟩
    simp [Function.update_of_ne hm]

end Spec

end Xv6.Kernel
