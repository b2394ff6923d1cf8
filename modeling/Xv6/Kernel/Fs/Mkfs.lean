import Xv6.Kernel.Fs.Balloc
import Xv6.Lib.Reach

/-!
# The image `mkfs` writes (`mkfs/mkfs.c`)

`mkfs` zeroes the disk, makes the root directory, then for every file on its
command line allocates an inode, adds a directory entry for it to the root,
and appends the file's bytes in `BSIZE` chunks. Blocks are handed out by a
bump pointer, `freeblock++`, from the first data block on; at the end one
bitmap block is written with the first `freeblock` bits set.

The files come as (name, contents) pairs, the names as `mkfs` enters them
(after dropping `user/` and a leading `_`). The superblock is the parameter
`mkfsSb`, not bytes of block 1.

`mkfsImage_blockInv`: every image whose files fit in `NINODES` inodes and
`FSSIZE` blocks satisfies the allocator's invariant, with every inode past
`NINODES` free.
-/

namespace Xv6.Kernel

open Xv6.Lib

/-- `DIRSIZ`. -/
def dirsiz : Nat := 14

/-- `ROOTINO`. -/
def rootino : Nat := 1

/-- A `struct dirent` as `mkfs` fills it: `xshort(inum)`, then the name
zero-padded to `DIRSIZ`. -/
def direntBytes (inum : Nat) (name : List UInt8) : List UInt8 :=
  [UInt8.ofNat inum, UInt8.ofNat (inum / 256)] ++ name.take dirsiz ++
    List.replicate (dirsiz - name.length) 0

/-- The bitmap block `balloc(used)` writes: `buf[i/8] |= 1 << (i%8)` for `i < used`. -/
def mkfsBitmap (used : Nat) : Block :=
  (List.range used).foldl (fun b i => b.setBit i) Bytes.zero

/-- `nmeta`, the blocks before the first data block. -/
def nmeta : Nat := 2 + logSize + (mkfsNinodes / ipb + 1) + (fsSize / bpb + 1)

/-- What `mkfs` keeps as it builds the image. -/
structure Mkfs where
  fs : FsState
  freeinode : Nat
  freeblock : Nat

namespace Mkfs

/-- The zeroed disk, before the root directory. -/
def start : Mkfs := ⟨⟨fun _ => Bytes.zero, fun _ => DInode.fresh 0, []⟩, 1, nmeta⟩

/-- `ialloc(type)` of `mkfs`: the next inode number, written with one link. -/
def ialloc (m : Mkfs) (type : Int) : Nat × Mkfs :=
  let fs := m.fs.setInode m.freeinode ⟨type, 1, 0, fun _ => 0⟩
  (m.freeinode, { m with freeinode := m.freeinode + 1, fs := fs })

/-- `if (xint(din.addrs[k]) == 0) din.addrs[k] = xint(freeblock++)`. -/
def fillAddr (m : Mkfs) (inum : Nat) (k : Fin (ndirect + 1)) : Mkfs :=
  let din := m.fs.inodes inum
  if (din.addrs k).toNat = 0 then
    let addrs := Function.update din.addrs k (UInt32.ofNat m.freeblock)
    { m with freeblock := m.freeblock + 1, fs := m.fs.setInode inum { din with addrs := addrs } }
  else m

/-- `rsect(ind, indirect); if (indirect[j] == 0) { indirect[j] = xint(freeblock++);
wsect(ind, indirect); }`. -/
def fillEntry (m : Mkfs) (ind j : Nat) : Mkfs :=
  if indirectEntry (m.fs.disk ind) j = 0 then
    let bp := (m.fs.disk ind).setU32 (4 * j) (UInt32.ofNat m.freeblock)
    { m with freeblock := m.freeblock + 1, fs := m.fs.setBlock ind bp }
  else m

/-- The block `x` of file block `fbn` in `iappend`, allocated where missing. -/
def blockOf (m : Mkfs) (inum fbn : Nat) : Nat × Mkfs :=
  if h : fbn < ndirect then
    let k : Fin (ndirect + 1) := ⟨fbn, Nat.lt_succ_of_lt h⟩
    let m := m.fillAddr inum k
    (((m.fs.inodes inum).addrs k).toNat, m)
  else
    let m := m.fillAddr inum (Fin.last ndirect)
    let ind := (m.fs.inodes inum).ptr
    let m := m.fillEntry ind (fbn - ndirect)
    (indirectEntry (m.fs.disk ind) (fbn - ndirect), m)

/-- The loop of `iappend(inum, p, n)` from offset `off`; `none` when
`assert(fbn < MAXFILE)` fails. Every pass moves at least one byte. -/
def iappendLoop (inum : Nat) : Mkfs → Nat → List UInt8 → Nat → Option (Mkfs × Nat)
  | m, off, _, 0 => some (m, off)
  | m, off, [], _ + 1 => some (m, off)
  | m, off, c :: cs, fuel + 1 =>
    let fbn := off / bsize
    if fbn < maxfile then
      let r := m.blockOf inum fbn
      let p := c :: cs
      let n1 := min p.length ((fbn + 1) * bsize - off)
      let buf := (r.2.fs.disk r.1).setList (off - fbn * bsize) (p.take n1)
      let m := { r.2 with fs := r.2.fs.setBlock r.1 buf }
      iappendLoop inum m (off + n1) (p.drop n1) fuel
    else none

/-- `iappend(inum, p, n)`. -/
def iappend (m : Mkfs) (inum : Nat) (p : List UInt8) : Option Mkfs := do
  let (m, off) ← iappendLoop inum m (m.fs.inodes inum).size.toNat p p.length
  pure { m with fs := m.fs.setInode inum { m.fs.inodes inum with size := UInt32.ofNat off } }

/-- One file of the command line: its inode, its entry in the root directory,
then its bytes as `read` returns them, `BSIZE` at a time. The name is the
short name `main` enters (mkfs.c:131-148): the argument with a leading `user/`
and then a leading `_` dropped. The stripping itself is not modelled, so the
two asserts below are checked on that short name. -/
def addFile (m : Mkfs) (file : List UInt8 × List UInt8) : Option Mkfs :=
  let (name, content) := file
  -- `assert(index(shortname, '/') == 0)`, `assert(strlen(shortname) <= DIRSIZ)`
  if (47 : UInt8) ∈ name ∨ dirsiz < name.length then none
  else do
    let r := m.ialloc tFile
    let m ← r.2.iappend rootino (direntBytes r.1 name)
    (content.toChunks bsize).foldlM (fun m chunk => m.iappend r.1 chunk) m

end Mkfs

/-- `mkfs fs.img files...`. -/
def mkfsImage (files : List (List UInt8 × List UInt8)) : Option Mkfs := do
  let r := Mkfs.start.ialloc tDir
  let m ← r.2.iappend rootino (direntBytes rootino [46])
  let m ← m.iappend rootino (direntBytes rootino [46, 46])
  let m ← files.foldlM Mkfs.addFile m
  -- fix size of root inode dir
  let din := m.fs.inodes rootino
  let off := (din.size.toNat / bsize + 1) * bsize
  let m := { m with fs := m.fs.setInode rootino { din with size := UInt32.ofNat off } }
  -- `balloc(freeblock)`, with `assert(used < BPB)`
  if m.freeblock < bpb then
    pure { m with fs := m.fs.setBlock mkfsSb.bmapstart (mkfsBitmap m.freeblock) }
  else none

/-! ## The bitmap `mkfs` writes -/

theorem testBit_mkfsBitmap {used : Nat} (h : used ≤ 8 * bsize) (j : Nat) :
    (mkfsBitmap used).testBit j = decide (j < used) := by
  induction used with
  | zero => simp [mkfsBitmap]
  | succ n ih =>
    have hset : mkfsBitmap (n + 1) = (mkfsBitmap n).setBit n := by
      simp [mkfsBitmap, List.range_succ]
    rw [hset, Bytes.testBit_setBit _ (by omega), ih (by omega)]
    by_cases hj : j = n
    · subst hj
      simp
    · have hnj : n ≠ j := Ne.symm hj
      simp only [hnj, decide_false, Bool.false_or, decide_eq_decide]
      omega

/-! ## `freeblock` and `freeinode` only grow -/

namespace Mkfs

variable {m : Mkfs}

theorem le_fillAddr (inum : Nat) (k : Fin (ndirect + 1)) :
    m.freeblock ≤ (m.fillAddr inum k).freeblock ∧ (m.fillAddr inum k).freeinode = m.freeinode := by
  unfold fillAddr
  dsimp only
  split_ifs <;> simp

theorem le_fillEntry (ind j : Nat) :
    m.freeblock ≤ (m.fillEntry ind j).freeblock ∧ (m.fillEntry ind j).freeinode = m.freeinode := by
  unfold fillEntry
  dsimp only
  split_ifs <;> simp

theorem le_blockOf (inum fbn : Nat) :
    m.freeblock ≤ (m.blockOf inum fbn).2.freeblock ∧
      (m.blockOf inum fbn).2.freeinode = m.freeinode := by
  unfold blockOf
  dsimp only
  split_ifs
  · exact le_fillAddr inum _
  · obtain ⟨h1, h2⟩ := le_fillAddr (m := m) inum (Fin.last ndirect)
    obtain ⟨h3, h4⟩ := le_fillEntry (m := m.fillAddr inum (Fin.last ndirect))
      ((m.fillAddr inum (Fin.last ndirect)).fs.inodes inum).ptr (fbn - ndirect)
    exact ⟨le_trans h1 h3, h4.trans h2⟩

theorem le_iappendLoop (inum : Nat) (fuel : Nat) :
    ∀ {m : Mkfs} {off : Nat} {p : List UInt8} {r : Mkfs × Nat},
      iappendLoop inum m off p fuel = some r →
      m.freeblock ≤ r.1.freeblock ∧ r.1.freeinode = m.freeinode := by
  induction fuel with
  | zero =>
    intro m off p r h
    cases h
    exact ⟨le_rfl, rfl⟩
  | succ fuel ih =>
    intro m off p r h
    cases p with
    | nil =>
      cases h
      exact ⟨le_rfl, rfl⟩
    | cons c cs =>
      unfold iappendLoop at h
      dsimp only at h
      split_ifs at h
      obtain ⟨h1, h2⟩ := le_blockOf (m := m) inum (off / bsize)
      obtain ⟨h3, h4⟩ := ih h
      exact ⟨le_trans h1 h3, h4.trans h2⟩

theorem le_iappend {inum : Nat} {p : List UInt8} {m' : Mkfs} (h : m.iappend inum p = some m') :
    m.freeblock ≤ m'.freeblock ∧ m'.freeinode = m.freeinode := by
  unfold iappend at h
  cases hl : iappendLoop inum m (m.fs.inodes inum).size.toNat p p.length with
  | none => simp [hl, bind, Option.bind] at h
  | some r =>
    simp only [hl, bind, Option.bind, pure] at h
    cases h
    exact le_iappendLoop inum _ hl

theorem le_foldlM_iappend {inum : Nat} (chunks : List (List UInt8)) :
    ∀ {m m' : Mkfs}, chunks.foldlM (fun m chunk => m.iappend inum chunk) m = some m' →
      m.freeblock ≤ m'.freeblock ∧ m'.freeinode = m.freeinode := by
  induction chunks with
  | nil =>
    intro m m' h
    cases h
    exact ⟨le_rfl, rfl⟩
  | cons c cs ih =>
    intro m m' h
    rw [List.foldlM_cons] at h
    cases hc : m.iappend inum c with
    | none => simp [hc, bind, Option.bind] at h
    | some m₁ =>
      simp only [hc, bind, Option.bind] at h
      obtain ⟨h1, h2⟩ := le_iappend hc
      obtain ⟨h3, h4⟩ := ih h
      exact ⟨le_trans h1 h3, h4.trans h2⟩

theorem le_addFile {file : List UInt8 × List UInt8} {m' : Mkfs} (h : m.addFile file = some m') :
    m.freeblock ≤ m'.freeblock ∧ m'.freeinode = m.freeinode + 1 := by
  unfold addFile at h
  dsimp only at h
  split_ifs at h
  cases ha : (m.ialloc tFile).2.iappend rootino (direntBytes (m.ialloc tFile).1 file.1) with
  | none => simp [ha, bind, Option.bind] at h
  | some m₁ =>
    simp only [ha, bind, Option.bind] at h
    obtain ⟨h1, h2⟩ := le_iappend ha
    obtain ⟨h3, h4⟩ := le_foldlM_iappend _ h
    exact ⟨le_trans h1 h3, by rw [h4, h2]; rfl⟩

theorem le_foldlM_addFile (files : List (List UInt8 × List UInt8)) :
    ∀ {m m' : Mkfs}, files.foldlM addFile m = some m' →
      m.freeblock ≤ m'.freeblock ∧ m.freeinode ≤ m'.freeinode := by
  induction files with
  | nil =>
    intro m m' h
    cases h
    exact ⟨le_rfl, le_rfl⟩
  | cons f fs ih =>
    intro m m' h
    rw [List.foldlM_cons] at h
    cases hc : m.addFile f with
    | none => simp [hc, bind, Option.bind] at h
    | some m₁ =>
      simp only [hc, bind, Option.bind] at h
      obtain ⟨h1, h2⟩ := le_addFile hc
      obtain ⟨h3, h4⟩ := ih h
      exact ⟨le_trans h1 h3, by omega⟩

/-- Each file takes the next inode number; nothing compares the count with `NINODES`. -/
theorem freeinode_foldlM_addFile (files : List (List UInt8 × List UInt8)) :
    ∀ {m m' : Mkfs}, files.foldlM addFile m = some m' →
      m'.freeinode = m.freeinode + files.length := by
  induction files with
  | nil =>
    intro m m' h
    cases h
    rfl
  | cons f fs ih =>
    intro m m' h
    rw [List.foldlM_cons] at h
    cases hc : m.addFile f with
    | none => simp [hc, bind, Option.bind] at h
    | some m₁ =>
      simp only [hc, bind, Option.bind] at h
      rw [ih h, (le_addFile hc).2, List.length_cons]
      omega

/-! ## What holds as `mkfs` runs

The slots hold exactly the blocks handed out so far, `[nmeta, freeblock)`,
each once; nothing from `freeblock` on has been written; no inode from
`freeinode` on is in use. Each step keeps it provided the block numbers it
hands out fit in a `uint`. -/

/-- The invariant of `mkfs`'s allocation. -/
structure Inv (m : Mkfs) : Prop where
  start_le : mkfsSb.dstart ≤ m.freeblock
  owned : Owned (m.fs.slotVal mkfsSb) (fun b => decide (b < m.freeblock)) mkfsSb.dstart m.freeblock
  fresh : ∀ b, m.freeblock ≤ b → m.fs.disk b = Bytes.zero
  free : ∀ n, m.freeinode ≤ n → (m.fs.inodes n).type = 0

theorem nmeta_eq : nmeta = mkfsSb.dstart := by decide

theorem Inv.start : Inv Mkfs.start where
  start_le := nmeta_eq.ge
  owned := by
    have hzero : Mkfs.start.fs.slotVal mkfsSb = fun _ => 0 := by
      funext p
      simp [FsState.slotVal, Mkfs.start, DInode.fresh]
    rw [hzero]
    refine ⟨by decide, fun _ h => absurd rfl h, fun b hb => ?_, fun b hlo hhi => ?_⟩
    · rw [count_eq_zero_iff.mpr fun _ => Ne.symm hb]
      omega
    · have : Mkfs.start.freeblock = mkfsSb.dstart := nmeta_eq
      omega
  fresh _ _ := rfl
  free _ _ := rfl

theorem Inv.ialloc (h : Inv m) (hlt : m.freeinode < mkfsSb.ninodes) (type : Int) :
    Inv (m.ialloc type).2 where
  start_le := h.start_le
  owned := by
    have hs : (m.ialloc type).2.fs.slotVal mkfsSb = m.fs.slotVal mkfsSb :=
      FsState.slotVal_setInode_of_zero (i := ⟨m.freeinode, hlt⟩)
        (fun q => by simp [FsState.slotVal, h.free _ (Nat.le_refl _)]) (.inr fun _ => rfl)
    rw [hs]
    exact h.owned
  fresh := h.fresh
  free n hn := by
    have hn' : m.freeinode + 1 ≤ n := hn
    show (Function.update m.fs.inodes m.freeinode _ n).type = 0
    rw [Function.update_of_ne (by omega)]
    exact h.free n (by omega)

theorem Inv.fillAddr (h : Inv m) {i : Fin mkfsSb.ninodes} (hi : (m.fs.inodes i).type ≠ 0)
    (k : Fin (ndirect + 1)) (hfit : (m.fillAddr i k).freeblock < 2 ^ 32) :
    Inv (m.fillAddr i k) ∧ (∀ n, ((m.fillAddr i k).fs.inodes n).type = (m.fs.inodes n).type) ∧
      (m.fillAddr i k).fs.slotVal mkfsSb (i, Slot.addr k) ≠ 0 := by
  have hval : m.fs.slotVal mkfsSb (i, Slot.addr k) = ((m.fs.inodes i).addrs k).toNat := by
    rw [FsState.slotVal_of_type i _ hi, DInode.slot_addr]
  unfold Mkfs.fillAddr at hfit ⊢
  dsimp only at hfit ⊢
  split_ifs at hfit ⊢ with hk
  · -- `addrs[k] = freeblock++`: the bump allocator's move
    have hfb : m.freeblock + 1 < 2 ^ 32 := hfit
    have hv : (UInt32.ofNat m.freeblock).toNat = m.freeblock :=
      UInt32.toNat_ofNat_of_lt' (by show _ < 4294967296; omega)
    have hslot : (m.fs.setInode i { m.fs.inodes i with
        addrs := Function.update (m.fs.inodes i).addrs k (UInt32.ofNat m.freeblock) }).slotVal
          mkfsSb = Function.update (m.fs.slotVal mkfsSb) (i, Slot.addr k) m.freeblock := by
      refine FsState.slotVal_setInode hi hi fun q => ?_
      rw [DInode.slot_fill hk (fun _ j => by rw [hv, h.fresh _ (Nat.le_refl _)]; simp [indirectEntry]) q,
        hv]
    have hpos := h.owned.lo_pos
    refine ⟨⟨by show mkfsSb.dstart ≤ m.freeblock + 1; have := h.start_le; omega, ?_, ?_, ?_⟩,
      fun n => ?_, ?_⟩
    · rw [hslot]
      exact h.owned.push h.start_le (by rw [hval, hk])
    · intro b hb
      exact h.fresh b (by simp at hb; omega)
    · intro n hn
      by_cases hni : n = (i : Nat)
      · subst hni
        simp [hi] at hn ⊢
        exact absurd (h.free _ hn) hi
      · simp [Function.update_of_ne hni]
        exact h.free n hn
    · by_cases hni : n = (i : Nat)
      · subst hni
        simp
      · simp [Function.update_of_ne hni]
    · rw [hslot, Function.update_self]
      have := h.start_le
      omega
  · exact ⟨h, fun _ => rfl, by rw [hval]; exact hk⟩

theorem Inv.fillEntry (h : Inv m) {i : Fin mkfsSb.ninodes} (hi : (m.fs.inodes i).type ≠ 0)
    (hp : (m.fs.inodes i).ptr ≠ 0) (j : Fin nindirect)
    (hfit : (m.fillEntry (m.fs.inodes i).ptr j).freeblock < 2 ^ 32) :
    Inv (m.fillEntry (m.fs.inodes i).ptr j) ∧
      (m.fillEntry (m.fs.inodes i).ptr j).fs.inodes = m.fs.inodes ∧
      (m.fillEntry (m.fs.inodes i).ptr j).fs.slotVal mkfsSb (i, Slot.entry j) ≠ 0 := by
  have hval : m.fs.slotVal mkfsSb (i, Slot.entry j) =
      indirectEntry (m.fs.disk (m.fs.inodes i).ptr) j := by
    rw [FsState.slotVal_of_type i _ hi, DInode.slot_entry, if_neg hp]
  have hptr : m.fs.slotVal mkfsSb (i, Slot.ptr) = (m.fs.inodes i).ptr := FsState.slotVal_ptr i hi
  have hlt : (m.fs.inodes i).ptr < m.freeblock := by
    rw [← hptr]
    exact (h.owned.inside _ (by rw [hptr]; exact hp)).2
  unfold Mkfs.fillEntry at hfit ⊢
  dsimp only at hfit ⊢
  split_ifs at hfit ⊢ with he
  · -- `indirect[j] = freeblock++`, written back to the indirect block
    have hfb : m.freeblock + 1 < 2 ^ 32 := hfit
    have hslot : (m.fs.setBlock (m.fs.inodes i).ptr ((m.fs.disk (m.fs.inodes i).ptr).setU32 (4 * j)
        (UInt32.ofNat m.freeblock))).slotVal mkfsSb =
        Function.update (m.fs.slotVal mkfsSb) (i, Slot.entry j) m.freeblock := by
      rw [FsState.slotVal_setBlock]
      exact FsState.slotVal_setEntry hi hp (FsState.ptr_unique h.owned hi hp) (by omega)
    refine ⟨⟨by show mkfsSb.dstart ≤ m.freeblock + 1; have := h.start_le; omega, ?_, ?_, h.free⟩,
      rfl, ?_⟩
    · rw [hslot]
      exact h.owned.push h.start_le (by rw [hval, he])
    · intro b hb
      have hb' : m.freeblock + 1 ≤ b := hb
      show Function.update m.fs.disk _ _ b = Bytes.zero
      rw [Function.update_of_ne (by omega)]
      exact h.fresh b (by omega)
    · rw [hslot, Function.update_self]
      have := h.start_le
      have := h.owned.lo_pos
      omega
  · exact ⟨h, rfl, by rw [hval]; exact he⟩

theorem Inv.blockOf (h : Inv m) {i : Fin mkfsSb.ninodes} (hi : (m.fs.inodes i).type ≠ 0)
    {fbn : Nat} (hfbn : fbn < maxfile) (hfit : (m.blockOf i fbn).2.freeblock < 2 ^ 32) :
    Inv (m.blockOf i fbn).2 ∧
      (∀ n, ((m.blockOf i fbn).2.fs.inodes n).type = (m.fs.inodes n).type) ∧
      ∃ q, q ≠ Slot.ptr ∧ (m.blockOf i fbn).2.fs.slotVal mkfsSb (i, q) = (m.blockOf i fbn).1 ∧
        (m.blockOf i fbn).1 ≠ 0 := by
  unfold Mkfs.blockOf at hfit ⊢
  dsimp only at hfit ⊢
  split_ifs at hfit ⊢ with hd
  · -- a direct block
    obtain ⟨hinv, htype, hne⟩ := h.fillAddr hi ⟨fbn, Nat.lt_succ_of_lt hd⟩ hfit
    have hval : (m.fillAddr i ⟨fbn, Nat.lt_succ_of_lt hd⟩).fs.slotVal mkfsSb
        (i, Slot.addr ⟨fbn, Nat.lt_succ_of_lt hd⟩) = _ :=
      FsState.slotVal_of_type i _ (by rw [htype]; exact hi)
    rw [DInode.slot_addr] at hval
    refine ⟨hinv, htype, _, fun heq => ?_, hval, by rw [← hval]; exact hne⟩
    have := congrArg Fin.val (DInode.addr_injective heq)
    simp only [Fin.val_last] at this
    omega
  · -- the indirect block, then its entry
    have hj : fbn - ndirect < nindirect := by
      unfold maxfile at hfbn
      omega
    set m₁ := m.fillAddr i (Fin.last ndirect)
    have hle := (le_fillEntry (m := m₁) (m₁.fs.inodes i).ptr (fbn - ndirect)).1
    obtain ⟨hinv₁, htype₁, hne₁⟩ := h.fillAddr hi (Fin.last ndirect) (lt_of_le_of_lt hle hfit)
    have hi₁ : (m₁.fs.inodes i).type ≠ 0 := by rw [htype₁]; exact hi
    have hp₁ : (m₁.fs.inodes i).ptr ≠ 0 := by
      rw [← FsState.slotVal_ptr i hi₁]
      exact hne₁
    obtain ⟨hinv₂, hinodes₂, hne₂⟩ := hinv₁.fillEntry hi₁ hp₁ ⟨fbn - ndirect, hj⟩ hfit
    have hval : (m₁.fillEntry (m₁.fs.inodes i).ptr (fbn - ndirect)).fs.slotVal mkfsSb
        (i, Slot.entry ⟨fbn - ndirect, hj⟩) = _ :=
      FsState.slotVal_of_type i _ (by rw [hinodes₂]; exact hi₁)
    rw [DInode.slot_entry, hinodes₂, if_neg hp₁] at hval
    exact ⟨hinv₂, fun n => by rw [hinodes₂, htype₁], _, DInode.entry_ne_addr _ _, hval,
      by rw [← hval]; exact hne₂⟩

/-- Writing a block a data slot holds keeps the invariant. -/
theorem Inv.setHeld (h : Inv m) {p : Fin mkfsSb.ninodes × Slot} (hq : p.2 ≠ Slot.ptr) {x : Nat}
    (hx : m.fs.slotVal mkfsSb p = x) (hx0 : x ≠ 0) (v : Block) :
    Inv { m with fs := m.fs.setBlock x v } := by
  subst hx
  have hlt := (h.owned.inside p hx0).2
  refine ⟨h.start_le, ?_, fun b hb => ?_, h.free⟩
  · have hs : (m.fs.setBlock (m.fs.slotVal mkfsSb p) v).slotVal mkfsSb = m.fs.slotVal mkfsSb :=
      FsState.slotVal_of_held h.owned hq rfl (fun z hz => Function.update_of_ne hz _ _)
    show Owned ((m.fs.setBlock _ v).slotVal mkfsSb) _ _ _
    rw [hs]
    exact h.owned
  · show Function.update m.fs.disk _ _ b = Bytes.zero
    have hb' : m.freeblock ≤ b := hb
    rw [Function.update_of_ne (by omega)]
    exact h.fresh b hb'

theorem Inv.iappendLoop {i : Fin mkfsSb.ninodes} (fuel : Nat) :
    ∀ {m : Mkfs} {off : Nat} {p : List UInt8} {r : Mkfs × Nat}, Inv m →
      (m.fs.inodes i).type ≠ 0 → Mkfs.iappendLoop i m off p fuel = some r →
      r.1.freeblock < 2 ^ 32 → Inv r.1 ∧ ∀ n, (r.1.fs.inodes n).type = (m.fs.inodes n).type := by
  induction fuel with
  | zero =>
    intro m off p r h _ hl _
    cases hl
    exact ⟨h, fun _ => rfl⟩
  | succ fuel ih =>
    intro m off p r h hi hl hfit
    cases p with
    | nil =>
      cases hl
      exact ⟨h, fun _ => rfl⟩
    | cons c cs =>
      unfold Mkfs.iappendLoop at hl
      dsimp only at hl
      split_ifs at hl with hfbn
      -- the block for this pass, then the bytes copied into it
      have hle := (le_iappendLoop i fuel hl).1
      obtain ⟨hinv, htype, q, hq, hval, hne⟩ := h.blockOf hi hfbn (by simp only at hle; omega)
      have hinv₂ := hinv.setHeld hq hval hne
        (((m.blockOf i (off / bsize)).2.fs.disk (m.blockOf i (off / bsize)).1).setList
          (off - off / bsize * bsize)
          ((c :: cs).take (min (c :: cs).length ((off / bsize + 1) * bsize - off))))
      obtain ⟨hinv', htype'⟩ := ih hinv₂ (by simp [htype, hi]) hl hfit
      exact ⟨hinv', fun n => by rw [htype']; exact htype n⟩

/-- A change to an inode's size keeps the invariant. -/
theorem Inv.setSize (h : Inv m) (i : Nat) (sz : UInt32) :
    Inv { m with fs := m.fs.setInode i { m.fs.inodes i with size := sz } } := by
  refine ⟨h.start_le, ?_, h.fresh, fun n hn => ?_⟩
  · show Owned ((m.fs.setInode i _).slotVal mkfsSb) _ _ _
    rw [FsState.slotVal_setSize]
    exact h.owned
  · by_cases hni : n = i
    · subst hni
      simp only [FsState.setInode_inodes, Function.update_self]
      exact h.free _ hn
    · simp only [FsState.setInode_inodes, Function.update_of_ne hni]
      exact h.free _ hn

theorem Inv.iappend (h : Inv m) {i : Fin mkfsSb.ninodes} (hi : (m.fs.inodes i).type ≠ 0)
    {p : List UInt8} {m' : Mkfs} (ha : m.iappend i p = some m') (hfit : m'.freeblock < 2 ^ 32) :
    Inv m' ∧ ∀ n, (m'.fs.inodes n).type = (m.fs.inodes n).type := by
  unfold Mkfs.iappend at ha
  cases hl : Mkfs.iappendLoop i m (m.fs.inodes i).size.toNat p p.length with
  | none => simp [hl, bind, Option.bind] at ha
  | some r =>
    simp only [hl, bind, Option.bind, pure] at ha
    cases ha
    obtain ⟨hinv, htype⟩ := h.iappendLoop _ hi hl hfit
    refine ⟨hinv.setSize i _, fun n => ?_⟩
    by_cases hni : n = (i : Nat)
    · subst hni
      simp [htype]
    · simp [Function.update_of_ne hni, htype]

theorem Inv.foldlM_iappend {i : Fin mkfsSb.ninodes} (chunks : List (List UInt8)) :
    ∀ {m m' : Mkfs}, Inv m → (m.fs.inodes i).type ≠ 0 →
      chunks.foldlM (fun m chunk => m.iappend i chunk) m = some m' → m'.freeblock < 2 ^ 32 →
      Inv m' ∧ ∀ n, (m'.fs.inodes n).type = (m.fs.inodes n).type := by
  induction chunks with
  | nil =>
    intro m m' h _ hf _
    cases hf
    exact ⟨h, fun _ => rfl⟩
  | cons c cs ih =>
    intro m m' h hi hf hfit
    rw [List.foldlM_cons] at hf
    cases hc : m.iappend i c with
    | none => simp [hc, bind, Option.bind] at hf
    | some m₁ =>
      simp only [hc, bind, Option.bind] at hf
      obtain ⟨hinv₁, htype₁⟩ :=
        h.iappend hi hc (lt_of_le_of_lt (le_foldlM_iappend cs hf).1 hfit)
      obtain ⟨hinv', htype'⟩ := ih hinv₁ (by rw [htype₁]; exact hi) hf hfit
      exact ⟨hinv', fun n => by rw [htype', htype₁]⟩

theorem rootino_lt : rootino < mkfsSb.ninodes := by decide

/-- Adding a file keeps the invariant and the root directory allocated, as long as the
inode numbers it hands out stay below `NINODES`. -/
theorem Inv.addFile (h : Inv m) (hroot : (m.fs.inodes rootino).type ≠ 0) (h2 : 2 ≤ m.freeinode)
    {file : List UInt8 × List UInt8} {m' : Mkfs} (ha : m.addFile file = some m')
    (hfit : m'.freeblock < 2 ^ 32) (hfi : m'.freeinode ≤ mkfsSb.ninodes) :
    Inv m' ∧ (m'.fs.inodes rootino).type ≠ 0 := by
  have hlt : m.freeinode < mkfsSb.ninodes := by
    rw [(le_addFile ha).2] at hfi
    omega
  unfold Mkfs.addFile at ha
  dsimp only at ha
  split_ifs at ha
  cases hd : (m.ialloc tFile).2.iappend rootino (direntBytes (m.ialloc tFile).1 file.1) with
  | none => simp [hd, bind, Option.bind] at ha
  | some m₁ =>
    simp only [hd, bind, Option.bind] at ha
    -- the new inode is the next number, never the root's
    have hne : rootino ≠ m.freeinode := by
      unfold rootino
      omega
    have hroot₀ : ((m.ialloc tFile).2.fs.inodes rootino).type ≠ 0 := by
      show (Function.update m.fs.inodes m.freeinode _ rootino).type ≠ 0
      rw [Function.update_of_ne hne]
      exact hroot
    have hnew₀ : ((m.ialloc tFile).2.fs.inodes m.freeinode).type ≠ 0 := by
      show (Function.update m.fs.inodes m.freeinode _ m.freeinode).type ≠ 0
      rw [Function.update_self]
      decide
    obtain ⟨hinv₁, htype₁⟩ := (h.ialloc hlt tFile).iappend (i := ⟨rootino, rootino_lt⟩) hroot₀ hd
      (lt_of_le_of_lt (le_foldlM_iappend _ ha).1 hfit)
    obtain ⟨hinv', htype'⟩ := hinv₁.foldlM_iappend (i := ⟨m.freeinode, hlt⟩) _
      (by rw [htype₁]; exact hnew₀) ha hfit
    exact ⟨hinv', by rw [htype', htype₁]; exact hroot₀⟩

theorem Inv.foldlM_addFile (files : List (List UInt8 × List UInt8)) :
    ∀ {m m' : Mkfs}, Inv m → (m.fs.inodes rootino).type ≠ 0 → 2 ≤ m.freeinode →
      files.foldlM Mkfs.addFile m = some m' → m'.freeblock < 2 ^ 32 →
      m'.freeinode ≤ mkfsSb.ninodes → Inv m' ∧ (m'.fs.inodes rootino).type ≠ 0 := by
  induction files with
  | nil =>
    intro m m' h hroot _ hf _ _
    cases hf
    exact ⟨h, hroot⟩
  | cons f fs ih =>
    intro m m' h hroot h2 hf hfit hfi
    rw [List.foldlM_cons] at hf
    cases hc : m.addFile f with
    | none => simp [hc, bind, Option.bind] at hf
    | some m₁ =>
      simp only [hc, bind, Option.bind] at hf
      have hle := le_foldlM_addFile fs hf
      obtain ⟨hinv₁, hroot₁⟩ := h.addFile hroot h2 hc (by omega) (by omega)
      exact ih hinv₁ hroot₁ (by rw [(le_addFile hc).2]; omega) hf hfit hfi

end Mkfs

/-! ## The image -/

theorem bmapstart_lt_dstart : mkfsSb.bmapstart < mkfsSb.dstart := by decide

/-- Below `BPB` blocks, every bit `mkfs` reads back is the one of its bump pointer. -/
theorem used_setBitmap {fs : FsState} {used b : Nat} (hused : used < bpb) (hb : b < bpb) :
    (fs.setBlock mkfsSb.bmapstart (mkfsBitmap used)).used mkfsSb b = decide (b < used) := by
  have hblk : mkfsSb.bblock b = mkfsSb.bmapstart := by
    unfold Superblock.bblock
    rw [Nat.div_eq_of_lt hb, Nat.zero_add]
  unfold FsState.used
  rw [hblk, FsState.setBlock_disk, Function.update_self, Nat.mod_eq_of_lt hb]
  exact testBit_mkfsBitmap (by rw [bpb_eq] at hused; rw [bsize_eq]; omega) b

/-- Writing the bitmap of the bump pointer, once the pointer is below the image's size,
turns the invariant of the build into the allocator's. -/
theorem Mkfs.Inv.setBitmap {m : Mkfs} (h : m.Inv) (hbpb : m.freeblock < bpb)
    (hfb : m.freeblock ≤ mkfsSb.size) :
    BlockInv mkfsSb (m.fs.setBlock mkfsSb.bmapstart (mkfsBitmap m.freeblock)) := by
  -- the bitmap block lies below every block a slot holds
  have hslot : (m.fs.setBlock mkfsSb.bmapstart (mkfsBitmap m.freeblock)).slotVal mkfsSb =
      m.fs.slotVal mkfsSb :=
    FsState.slotVal_setDisk rfl (fun z hz => Function.update_of_ne hz _ _) fun i hi hp heq => by
      have hin := h.owned.inside (i, Slot.ptr) (by rw [FsState.slotVal_ptr i hi]; exact hp)
      rw [FsState.slotVal_ptr i hi, heq] at hin
      exact absurd hin.1 (by have := bmapstart_lt_dstart; omega)
  have hbits : ∀ b, b < mkfsSb.size →
      (m.fs.setBlock mkfsSb.bmapstart (mkfsBitmap m.freeblock)).used mkfsSb b =
        decide (b < m.freeblock) := fun b hb =>
    used_setBitmap hbpb (lt_of_lt_of_le hb (by decide))
  refine ⟨fun b hb => ?_, ?_⟩
  · rw [hbits b (lt_of_lt_of_le hb (Superblock.dstart_le _))]
    have := h.start_le
    exact decide_eq_true (by omega)
  · rw [hslot]
    exact (h.owned.widen hfb fun b hb _ => decide_eq_false (by omega)).congr_bits
      fun b _ hb => hbits b hb

/-- The root takes inode `1` and the `k`-th file inode `k + 1`: an image of `n` files has
handed out every inode number up to `n + 1`. -/
theorem freeinode_mkfsImage {files : List (List UInt8 × List UInt8)} {m : Mkfs}
    (h : mkfsImage files = some m) : m.freeinode = files.length + 2 := by
  unfold mkfsImage at h
  cases h₁ : (Mkfs.start.ialloc tDir).2.iappend rootino (direntBytes rootino [46]) with
  | none => simp [h₁, bind, Option.bind] at h
  | some m₁ =>
  cases h₂ : m₁.iappend rootino (direntBytes rootino [46, 46]) with
  | none => simp [h₁, h₂, bind, Option.bind] at h
  | some m₂ =>
  cases h₃ : files.foldlM Mkfs.addFile m₂ with
  | none => simp [h₁, h₂, h₃, bind, Option.bind] at h
  | some m₃ =>
  simp only [h₁, h₂, h₃, bind, Option.bind, pure] at h
  split_ifs at h
  cases h
  -- the bitmap and the root's size leave the counter as the files left it
  show m₃.freeinode = _
  rw [Mkfs.freeinode_foldlM_addFile files h₃, (Mkfs.le_iappend h₂).2, (Mkfs.le_iappend h₁).2]
  show 1 + 1 + files.length = _
  omega

/-- An image whose files fit in the inodes and blocks of the superblock starts the file
system with its allocator invariant: every block below the data area marked in use, each
data block held by at most one slot and marked in use exactly when held, and no inode
beyond the table allocated. -/
theorem mkfsImage_blockInv {files : List (List UInt8 × List UInt8)} {m : Mkfs}
    (h : mkfsImage files = some m) (hfi : m.freeinode ≤ mkfsSb.ninodes)
    (hfb : m.freeblock ≤ mkfsSb.size) :
    BlockInv mkfsSb m.fs ∧ ∀ n, mkfsSb.ninodes ≤ n → (m.fs.inodes n).type = 0 := by
  unfold mkfsImage at h
  cases h₁ : (Mkfs.start.ialloc tDir).2.iappend rootino (direntBytes rootino [46]) with
  | none => simp [h₁, bind, Option.bind] at h
  | some m₁ =>
  cases h₂ : m₁.iappend rootino (direntBytes rootino [46, 46]) with
  | none => simp [h₁, h₂, bind, Option.bind] at h
  | some m₂ =>
  cases h₃ : files.foldlM Mkfs.addFile m₂ with
  | none => simp [h₁, h₂, h₃, bind, Option.bind] at h
  | some m₃ =>
  simp only [h₁, h₂, h₃, bind, Option.bind, pure] at h
  split_ifs at h with hbpb
  cases h
  -- the bump pointers along the way
  have hsize : mkfsSb.size < 2 ^ 32 := by decide
  have hle₃ := Mkfs.le_foldlM_addFile files h₃
  have hle₂ := Mkfs.le_iappend h₂
  have hle₁ := Mkfs.le_iappend h₁
  have hfb₃ : m₃.freeblock ≤ mkfsSb.size := hfb
  have hfi₃ : m₃.freeinode ≤ mkfsSb.ninodes := hfi
  -- the root directory, then its two entries, then the files
  have hroot₀ : ((Mkfs.start.ialloc tDir).2.fs.inodes rootino).type ≠ 0 := by
    simp [Mkfs.ialloc, Mkfs.start, rootino, tDir]
  obtain ⟨hinv₁, htype₁⟩ := (Mkfs.Inv.start.ialloc (by decide) tDir).iappend
    (i := ⟨rootino, Mkfs.rootino_lt⟩) hroot₀ h₁ (by omega)
  obtain ⟨hinv₂, htype₂⟩ := hinv₁.iappend (i := ⟨rootino, Mkfs.rootino_lt⟩)
    (by rw [htype₁]; exact hroot₀) h₂ (by omega)
  have hfi₂ : 2 ≤ m₂.freeinode := by
    rw [hle₂.2, hle₁.2]
    decide
  obtain ⟨hinv₃, -⟩ := hinv₂.foldlM_addFile files (by rw [htype₂, htype₁]; exact hroot₀) hfi₂ h₃
    (by omega) hfi
  exact ⟨(hinv₃.setSize rootino _).setBitmap hbpb hfb,
    fun n hn => (hinv₃.setSize rootino _).free n (show m₃.freeinode ≤ n by omega)⟩

end Xv6.Kernel
