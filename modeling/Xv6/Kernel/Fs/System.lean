import Xv6.Kernel.Fs.Mkfs
import Xv6.Kernel.Fs.Inode

/-!
# The file system under any sequence of inode-layer calls

Every file-system system call reaches the disk's blocks only through a few
calls of the inode layer: `ialloc` (in `create`), `writei` (file writes,
`dirlink`, `unlink`'s cleared entry), `readi` (reads, `dirlookup`, `exec`;
`bmap` allocates even here), `itrunc` (`O_TRUNC`), a write-back of a changed
link count (`link`, `unlink`, `create`), and `iput` dropping the last
reference of an unlinked inode. A system call is a sequence of these, so the
states any run of system calls reaches are states this system reaches.

Each call on an inode goes through `ilock`, which panics on a free one, and a
panic ends the run: it has no successor state. From an image `mkfs` built
within the superblock's inodes and blocks, the allocator's invariant holds in
every reachable state (`blocks_consistent`), and with it the agreement of bitmap and
inodes that `BlocksConsistent` states.
-/

namespace Xv6.Kernel

open Xv6.Lib

/-- The inode-layer calls, with every argument the caller chooses. -/
inductive InodeOp where
  | ialloc (type : Int)
  | writei (inum : Nat) (src : Nat → Option UInt8) (off n : UInt32)
  | readi (inum : Nat) (dst : Nat → Bool) (off n : UInt32)
  | itrunc (inum : Nat)
  | setNlink (inum : Nat) (nlink : Int16)
  | iput (inum : Nat)

/-- The check of `ilock` on the record it reads: `if (ip->type == 0) panic("ilock: no type")`. -/
def ilock (s : FsState) (inum : Nat) : Except String Unit :=
  if (s.inodes inum).type = 0 then .error "ilock: no type" else .ok ()

/-- `iput(ip)` of the last reference: `if (ip->ref == 1 && ip->valid && ip->nlink == 0)`
truncate and free it. A cached copy is valid only after an `ilock` that found a type. -/
def iput (sb : Superblock) (s : FsState) (inum : Nat) : Except String FsState :=
  if (s.inodes inum).type ≠ 0 ∧ (s.inodes inum).nlink = 0 then ifree sb s inum else .ok s

/-- One call, from a locked inode where the kernel locks one. -/
def inodeStep (sb : Superblock) (s : FsState) : InodeOp → Except String FsState
  | .ialloc type => .ok (ialloc sb s type).2
  | .writei inum src off n => do
    ilock s inum
    let r ← writei sb s inum src off n
    pure r.2
  | .readi inum dst off n => do
    ilock s inum
    let r ← readi sb s inum dst off n
    pure r.2.2
  | .itrunc inum => do
    ilock s inum
    itrunc sb s inum
  | .setNlink inum nlink => do
    -- `ip->nlink++; iupdate(ip)` and its variants
    ilock s inum
    pure ((s.setInode inum { s.inodes inum with nlink := nlink }).iupdate sb inum)
  | .iput inum => iput sb s inum

/-- The file system started from the image `img`. -/
def fsSys (sb : Superblock) (img : FsState) : TSys FsState InodeOp where
  init s := s = img
  step s op s' := inodeStep sb s op = .ok s'

/-- The allocator's invariant, and no inode allocated beyond the table `ialloc` scans. -/
structure FsInv (sb : Superblock) (s : FsState) : Prop where
  blocks : BlockInv sb s
  beyond : ∀ n, sb.ninodes ≤ n → (s.inodes n).type = 0

section Step

variable {sb : Superblock} {s s' : FsState}

theorem FsInv.ilock_ok (h : FsInv sb s) {inum : Nat} {u : Unit} (hl : ilock s inum = .ok u) :
    ∃ i : Fin sb.ninodes, (i : Nat) = inum ∧ (s.inodes i).type ≠ 0 := by
  unfold ilock at hl
  split_ifs at hl with h0
  have hlt : inum < sb.ninodes := by
    by_contra hge
    exact h0 (h.beyond inum (by omega))
  exact ⟨⟨inum, hlt⟩, rfl, h0⟩

/-- A step that keeps the allocator's invariant and every type beyond the table. -/
theorem FsInv.of_blocks (h : FsInv sb s) (hb : BlockInv sb s')
    (ht : ∀ n, sb.ninodes ≤ n → (s'.inodes n).type = (s.inodes n).type) : FsInv sb s' :=
  ⟨hb, fun n hn => by rw [ht n hn]; exact h.beyond n hn⟩

theorem ialloc_type_beyond (type : Int) {n : Nat} (hn : sb.ninodes ≤ n) :
    ((ialloc sb s type).2.inodes n).type = (s.inodes n).type := by
  unfold ialloc
  split
  · rfl
  · rename_i inum hscan
    have hlt := (iallocScan_some hscan).1
    have hne : n ≠ inum := by omega
    simp [Function.update_of_ne hne]

theorem FsInv.ialloc (hinv : FsInv sb s) (type : Int) : FsInv sb (ialloc sb s type).2 :=
  hinv.of_blocks (ialloc_spec hinv.blocks type).1 fun _ hn => ialloc_type_beyond type hn

theorem FsInv.setNlink (hinv : FsInv sb s) (inum : Nat) (nlink : Int16) :
    FsInv sb ((s.setInode inum { s.inodes inum with nlink := nlink }).iupdate sb inum) := by
  have hslot : (s.setInode inum { s.inodes inum with nlink := nlink }).slotVal sb = s.slotVal sb :=
    FsState.slotVal_setInode_same inum rfl rfl
  refine hinv.of_blocks ((hinv.blocks.congr hslot fun _ _ => rfl).iupdate inum) fun n _ => ?_
  by_cases hn : n = inum
  · subst hn
    simp
  · simp [Function.update_of_ne hn]

theorem FsInv.iput (hwf : sb.Wf) (hinv : FsInv sb s) {inum : Nat}
    (h : iput sb s inum = .ok s') : FsInv sb s' := by
  unfold Xv6.Kernel.iput at h
  split_ifs at h with hfree
  · have hlt : inum < sb.ninodes := by
      by_contra hge
      exact hfree.1 (hinv.beyond inum (by omega))
    obtain ⟨t, hok, hb, -, htype⟩ := ifree_spec (i := ⟨inum, hlt⟩) hwf hinv.blocks hfree.1
    rw [hok] at h
    cases h
    exact hinv.of_blocks hb fun n hn => htype n (by simp only; omega)
  · cases h
    exact hinv

/-- The step lemma: every call that does not panic keeps the invariant. -/
theorem FsInv.step (hwf : sb.Wf) (hinv : FsInv sb s) {op : InodeOp}
    (h : inodeStep sb s op = .ok s') : FsInv sb s' := by
  cases op with
  | ialloc type =>
    cases h
    exact hinv.ialloc type
  | writei inum src off n =>
    cases hl : ilock s inum with
    | error e => simp [inodeStep, hl, bind, Except.bind] at h
    | ok u =>
      obtain ⟨i, rfl, hi⟩ := hinv.ilock_ok hl
      cases hw : writei sb s i src off n with
      | error e => simp [inodeStep, hl, hw, bind, Except.bind] at h
      | ok r =>
        simp only [inodeStep, hl, hw, bind, Except.bind, pure, Except.pure, Except.ok.injEq] at h
        subst h
        obtain ⟨hb, ht⟩ := writei_spec hwf hinv.blocks hi hw
        exact hinv.of_blocks hb fun n _ => ht n
  | readi inum dst off n =>
    cases hl : ilock s inum with
    | error e => simp [inodeStep, hl, bind, Except.bind] at h
    | ok u =>
      obtain ⟨i, rfl, hi⟩ := hinv.ilock_ok hl
      cases hr : readi sb s i dst off n with
      | error e => simp [inodeStep, hl, hr, bind, Except.bind] at h
      | ok r =>
        simp only [inodeStep, hl, hr, bind, Except.bind, pure, Except.pure, Except.ok.injEq] at h
        subst h
        obtain ⟨hb, ht⟩ := readi_spec hwf hinv.blocks hi hr
        exact hinv.of_blocks hb fun n _ => ht n
  | itrunc inum =>
    cases hl : ilock s inum with
    | error e => simp [inodeStep, hl, bind, Except.bind] at h
    | ok u =>
      obtain ⟨i, rfl, hi⟩ := hinv.ilock_ok hl
      obtain ⟨t, hok, hb, ht, -⟩ := itrunc_spec hwf hinv.blocks hi
      simp only [inodeStep, hl, hok, bind, Except.bind, Except.ok.injEq] at h
      subst h
      exact hinv.of_blocks hb fun n _ => ht n
  | setNlink inum nlink =>
    cases hl : ilock s inum with
    | error e => simp [inodeStep, hl, bind, Except.bind] at h
    | ok u =>
      simp only [inodeStep, hl, bind, Except.bind, pure, Except.pure, Except.ok.injEq] at h
      subst h
      exact hinv.setNlink inum nlink
  | iput inum => exact hinv.iput hwf h

/-- The run lemma: from an image where the invariant holds, it holds in every reachable state. -/
theorem FsInv.invariant (hwf : sb.Wf) {img : FsState} (himg : FsInv sb img) :
    (fsSys sb img).Invariant (FsInv sb) :=
  TSys.Invariant.of_inductive (fun _ hs => hs ▸ himg) fun _ _ _ hinv hst => hinv.step hwf hst

end Step

/-- The bitmap and the inodes agree on every data block: its bit is set exactly when one
slot of an allocated inode holds it, no block is held twice, and every held block lies in
the file system. -/
def BlocksConsistent (sb : Superblock) (s : FsState) : Prop :=
  (∀ b, sb.dstart ≤ b → b < sb.size → (s.used sb b = true ↔ s.refCount sb b = 1)) ∧
  (∀ b, b ≠ 0 → s.refCount sb b ≤ 1) ∧
  (∀ p, s.slotVal sb p ≠ 0 → s.slotVal sb p < sb.size)

theorem BlockInv.consistent {sb : Superblock} {s : FsState} (h : BlockInv sb s) :
    BlocksConsistent sb s :=
  ⟨h.owned.bits, h.owned.once, fun p hp => (h.owned.inside p hp).2⟩

/-- Blocks are never leaked nor shared in any state reached from an image `mkfs` built
within the superblock's inodes and blocks. -/
theorem blocks_consistent {files : List (List UInt8 × List UInt8)} {m : Mkfs}
    (h : mkfsImage files = some m) (hfi : m.freeinode ≤ mkfsSb.ninodes)
    (hfb : m.freeblock ≤ mkfsSb.size) :
    (fsSys mkfsSb m.fs).Invariant (BlocksConsistent mkfsSb) := by
  obtain ⟨hb, hbeyond⟩ := mkfsImage_blockInv h hfi hfb
  exact (FsInv.invariant mkfsSb_wf ⟨hb, hbeyond⟩).mono fun _ hs => hs.blocks.consistent

/-- The image of no files: the root directory alone, in inode 1 and block 46. -/
theorem blocks_consistent_empty : ∃ m : Mkfs, mkfsImage [] = some m ∧
    m.freeinode ≤ mkfsSb.ninodes ∧ m.freeblock ≤ mkfsSb.size ∧
    (fsSys mkfsSb m.fs).Invariant (BlocksConsistent mkfsSb) := by
  have hrun : (mkfsImage []).map (fun m => (m.freeinode, m.freeblock)) = some (2, 47) := by
    decide
  cases h : mkfsImage [] with
  | none =>
    rw [h] at hrun
    cases hrun
  | some m =>
    rw [h] at hrun
    simp only [Option.map_some, Option.some.injEq, Prod.mk.injEq] at hrun
    have hfi : m.freeinode ≤ mkfsSb.ninodes := by
      rw [hrun.1]
      decide
    have hfb : m.freeblock ≤ mkfsSb.size := by
      rw [hrun.2]
      decide
    exact ⟨m, rfl, hfi, hfb, blocks_consistent h hfi hfb⟩

/-! ## The block `mkfs` adds to the root directory

`mkfs` ends by rounding the root directory's size up, `off = ((off/BSIZE) + 1) *
BSIZE`, and allocates nothing for it. When the entries already end on a block
boundary, as sixty-four entries of sixteen bytes do, the rounding adds a whole
block with no address below `size`: the first `readi` that reaches it
allocates it through `bmap`, logging the bitmap and the zeroed block and
changing `addrs[]` with no `iupdate`. -/

/-- Sixty-two empty files named `A` to `~`: with `.` and `..` the root
directory has sixty-four entries, one block exactly. -/
def rootHoleFiles : List (List UInt8 × List UInt8) :=
  (List.range 62).map fun k => ([UInt8.ofNat (65 + k)], [])

theorem mkfs_root_unbacked :
    ∃ m, mkfsImage rootHoleFiles = some m ∧ (m.fs.inodes rootino).type = tDir ∧
      (m.fs.inodes rootino).size.toNat = 2 * bsize ∧
      (m.fs.inodes rootino).blockAddr m.fs.disk 1 = 0 ∧ ¬ m.fs.Backed rootino ∧
      ∃ s', (fsSys mkfsSb m.fs).step m.fs (.readi rootino (fun _ => true) 1024 16) s' ∧
        s'.logged ≠ m.fs.logged ∧ (s'.inodes rootino).blockAddr s'.disk 1 ≠ 0 ∧
        mkfsSb.iblock rootino ∉ s'.logged := by
  -- the image: `/` is two blocks long and has one block
  have himg : (mkfsImage rootHoleFiles).map (fun m =>
      (decide ((m.fs.inodes rootino).type = tDir), (m.fs.inodes rootino).size.toNat,
        (m.fs.inodes rootino).blockAddr m.fs.disk 1)) = some (true, 2048, 0) := by
    decide +kernel
  -- one read of the second block of `/`, as `ls /` makes it
  have hrun : (mkfsImage rootHoleFiles).bind (fun m =>
      (inodeStep mkfsSb m.fs (.readi rootino (fun _ => true) 1024 16)).toOption.map fun s' =>
        (decide (s'.logged ≠ m.fs.logged), (s'.inodes rootino).blockAddr s'.disk 1,
          decide (mkfsSb.iblock rootino ∈ s'.logged))) = some (true, 47, false) := by
    decide +kernel
  cases hm : mkfsImage rootHoleFiles with
  | none =>
    rw [hm] at himg
    cases himg
  | some m =>
    rw [hm, Option.map_some, Option.some.injEq] at himg
    simp only [Prod.mk.injEq] at himg
    obtain ⟨htype, hsize, haddr⟩ := himg
    -- block `1` lies below `ceil(2048 / BSIZE) = 2` and has no address
    have hunbacked : ¬ m.fs.Backed rootino := by
      intro hb
      exact hb.2 1 (by rw [hsize]; decide) haddr
    rw [hm, Option.bind_some] at hrun
    cases hs : inodeStep mkfsSb m.fs (.readi rootino (fun _ => true) 1024 16) with
    | error e =>
      rw [hs] at hrun
      cases hrun
    | ok s' =>
      rw [hs] at hrun
      simp only [Except.toOption, Option.map_some, Option.some.injEq, Prod.mk.injEq] at hrun
      obtain ⟨hlogged, haddr', hiblock⟩ := hrun
      refine ⟨m, rfl, of_decide_eq_true htype, hsize, haddr, hunbacked, s', hs,
        of_decide_eq_true hlogged, by rw [haddr']; decide, of_decide_eq_false hiblock⟩

/-- Two hundred and eight empty files, named by the one-byte names `0` to `0xff`. -/
def manyFiles : List (List UInt8 × List UInt8) :=
  (List.range 208).map fun k => ([UInt8.ofNat (48 + k)], [])

theorem mkfs_inode_past_ninodes :
    ∃ m, mkfsImage manyFiles = some m ∧ m.freeinode = 210 ∧
      (m.fs.inodes 209).type = tFile ∧ mkfsSb.ninodes ≤ 209 ∧
      ((List.range 16).map fun j =>
        (m.fs.disk ((m.fs.inodes rootino).blockAddr m.fs.disk 3)).get (272 + j)) =
        direntBytes 209 [255] ∧
      mkfsSb.iblock 209 = mkfsSb.bmapstart := by
  -- the image: the last file has inode `209`, and the root's entry `209` names it
  have himg : (mkfsImage manyFiles).map (fun m =>
      (decide ((m.fs.inodes 209).type = tFile), (List.range 16).map fun j =>
        (m.fs.disk ((m.fs.inodes rootino).blockAddr m.fs.disk 3)).get (272 + j))) =
      some (true, direntBytes 209 [255]) := by
    decide +kernel
  cases hm : mkfsImage manyFiles with
  | none =>
    rw [hm] at himg
    cases himg
  | some m =>
    rw [hm, Option.map_some, Option.some.injEq, Prod.mk.injEq] at himg
    obtain ⟨htype, hent⟩ := himg
    -- `freeinode` counts the files with no bound, and inode `209` sits in the bitmap block
    refine ⟨m, rfl, freeinode_mkfsImage hm, of_decide_eq_true htype, by decide, hent, by decide⟩

end Xv6.Kernel
