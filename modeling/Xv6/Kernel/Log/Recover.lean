import Xv6.Lib.Buffer
import Xv6.Kernel.Log.Commit
import Xv6.Kernel.Fs.Layout

/-!
# Recovery at boot, from whatever the disk holds

`fsinit` reads the superblock, checks its magic number, and calls `initlog`,
which runs `recover_from_log`. The header block it reads is data from the
disk: a crash, another kernel or a bad sector may have left anything in it.
`Commit.lean` models recovery on headers that `write_head` wrote; here every
access the code makes is checked, as the C arrays and the disk are sized:

* the header block is `BSIZE` bytes (`Bytes.loadU32`, `Bytes.storeU32`);
* `log.lh.block` has `LOGSIZE` entries (`HeadBlocks.load`, `HeadBlocks.store`);
* the disk has `sb.size` blocks (`bread`).

Main results:

* `readHead_error_of_gt` — a header whose `n` exceeds `LOGSIZE` makes
  `read_head` write past the end of `log.lh.block`, and `fsinit_error_of_gt`
  lifts it to boot: `fsinit` on an image with a valid superblock fails in
  `read_head` whenever the header's `n` exceeds `LOGSIZE`.
* `recoverFromLog_eq_recovered` — on a header that fits `log.lh.block` and
  names only blocks of the disk, the checked recovery succeeds and leaves the
  disk that `recovered` of `Commit.lean` describes.
* `readsb_sbBlock` — `readsb` reads back the superblock `mkfs` writes.
-/

namespace Xv6.Kernel

open Xv6.Lib

/-- `FSMAGIC`. -/
def fsMagic : UInt32 := 0x10203040

/-- The superblock block as `mkfs` writes it:
`memmove(buf, &sb, sizeof(sb)); wsect(1, buf);`, the fields as
little-endian `uint`s in the order of `struct superblock`. -/
def sbBlock (magic : UInt32) (sb : Superblock) : Block :=
  (((((((Bytes.zero.setU32 0 magic).setU32 4 (UInt32.ofNat sb.size)).setU32 8
    (UInt32.ofNat sb.nblocks)).setU32 12 (UInt32.ofNat sb.ninodes)).setU32 16
    (UInt32.ofNat sb.nlog)).setU32 20 (UInt32.ofNat sb.logstart)).setU32 24
    (UInt32.ofNat sb.inodestart)).setU32 28 (UInt32.ofNat sb.bmapstart)

/-- `readsb(dev, &sb)`: `memmove(sb, bp->data, sizeof(*sb))` from block 1;
the magic number, and the other fields. -/
def readsb (d : Disk Block) : UInt32 × Superblock :=
  ((d 1).getU32 0,
    ⟨((d 1).getU32 4).toNat, ((d 1).getU32 8).toNat, ((d 1).getU32 12).toNat,
      ((d 1).getU32 16).toNat, ((d 1).getU32 20).toNat, ((d 1).getU32 24).toNat,
      ((d 1).getU32 28).toNat⟩)

/-- `bread(dev, b)` on an image of `size` blocks: a block number outside the
image names no block. -/
def bread (size : Nat) (d : Disk Block) (b : Nat) : Except String Block :=
  if b < size then .ok (d b) else .error "block number outside the disk"

theorem bread_of_lt {size b : Nat} (d : Disk Block) (h : b < size) : bread size d b = .ok (d b) :=
  if_pos h

/-- `int block[LOGSIZE]` of `struct logheader`. -/
abbrev HeadBlocks := Fin logSize → UInt32

namespace HeadBlocks

/-- `block[i]`, an error past `LOGSIZE`. -/
def load (blk : HeadBlocks) (i : Nat) : Except String UInt32 :=
  if h : i < logSize then .ok (blk ⟨i, h⟩) else .error "read past the end of log.lh.block"

/-- `block[i] = v`, an error past `LOGSIZE`. -/
def store (blk : HeadBlocks) (i : Nat) (v : UInt32) : Except String HeadBlocks :=
  if h : i < logSize then .ok (Function.update blk ⟨i, h⟩ v)
  else .error "write past the end of log.lh.block"

theorem load_of_lt (blk : HeadBlocks) {i : Nat} (h : i < logSize) : blk.load i = .ok (blk ⟨i, h⟩) :=
  dif_pos h

theorem store_of_lt (blk : HeadBlocks) {i : Nat} (h : i < logSize) (v : UInt32) :
    blk.store i v = .ok (Function.update blk ⟨i, h⟩ v) :=
  dif_pos h

theorem store_of_ge (blk : HeadBlocks) {i : Nat} (h : ¬i < logSize) (v : UInt32) :
    blk.store i v = .error "write past the end of log.lh.block" :=
  dif_neg h

/-- The entries `block[0..k)` as a list. -/
def take (blk : HeadBlocks) (k : Nat) : List UInt32 :=
  (List.range k).map fun i => if h : i < logSize then blk ⟨i, h⟩ else 0

end HeadBlocks

/-- `log.lh` in memory, as `struct logheader` declares it. `log` is a
global, zero at boot. -/
structure MemHead where
  n : Int
  block : HeadBlocks

/-- An `int` as the 32-bit word that stores it. -/
def wordOfInt (v : Int) : UInt32 := UInt32.ofNat (v % 2 ^ 32).toNat

namespace Checked

/-- The loop of `read_head` from `i`:
`for (; i < log.lh.n; i++) log.lh.block[i] = lh->block[i];`. -/
def readHeadLoop (hb : Block) (n : Int) (blk : HeadBlocks) (i : Nat) : Except String HeadBlocks :=
  if (i : Int) < n then do
    let v ← hb.loadU32 (4 * (i + 1))
    let blk ← blk.store i v
    readHeadLoop hb n blk (i + 1)
  else .ok blk
termination_by (n - i).toNat
decreasing_by omega

/-- `read_head()`: read the header block, `log.lh.n = lh->n`, then the loop. -/
def readHead (L : LogLoc) (size : Nat) (d : Disk Block) (lh : MemHead) : Except String MemHead := do
  let hb ← bread size d L.start
  let n ← hb.loadU32 0
  let blk ← readHeadLoop hb (intOfWord n) lh.block 0
  pure ⟨intOfWord n, blk⟩

/-- The loop of `install_trans(1)` from `tail`: for `tail < log.lh.n`, read
log block `log.start + tail + 1` and the block `log.lh.block[tail]`, copy the
first over the second and write it. -/
def installTransLoop (L : LogLoc) (size : Nat) (lh : MemHead) (d : Disk Block) (tail : Nat) :
    Except String (Disk Block) :=
  if (tail : Int) < lh.n then do
    let lbuf ← bread size d (L.start + tail + 1)
    let dst ← lh.block.load tail
    let _ ← bread size d dst.toNat
    installTransLoop L size lh (Function.update d dst.toNat lbuf) (tail + 1)
  else .ok d
termination_by (lh.n - tail).toNat
decreasing_by omega

/-- The loop of `write_head` from `i`:
`for (; i < log.lh.n; i++) hb->block[i] = log.lh.block[i];`. -/
def writeHeadLoop (lh : MemHead) (hb : Block) (i : Nat) : Except String Block :=
  if (i : Int) < lh.n then do
    let v ← lh.block.load i
    let hb ← hb.storeU32 (4 * (i + 1)) v
    writeHeadLoop lh hb (i + 1)
  else .ok hb
termination_by (lh.n - i).toNat
decreasing_by omega

/-- `write_head()`: read the header block, store `n` and the entries, write it. -/
def writeHead (L : LogLoc) (size : Nat) (lh : MemHead) (d : Disk Block) : Except String (Disk Block) := do
  let hb ← bread size d L.start
  let hb ← hb.storeU32 0 (wordOfInt lh.n)
  let hb ← writeHeadLoop lh hb 0
  pure (Function.update d L.start hb)

/-- `recover_from_log()`: `read_head`, `install_trans(1)`, `log.lh.n = 0`,
`write_head`. -/
def recoverFromLog (L : LogLoc) (size : Nat) (d : Disk Block) (lh : MemHead) :
    Except String (Disk Block × MemHead) := do
  let lh ← readHead L size d lh
  let d ← installTransLoop L size lh d 0
  let lh := { lh with n := 0 }
  let d ← writeHead L size lh d
  pure (d, lh)

end Checked

/-- `initlog(dev, sb)`: `log.start = sb->logstart`, `log.size = sb->nlog`,
then recovery, from the `log` of boot. -/
def initlog (sb : Superblock) (d : Disk Block) : Except String (Disk Block × MemHead) :=
  if bsize ≤ 4 * (logSize + 1) then .error "initlog: too big logheader"
  else Checked.recoverFromLog ⟨sb.logstart, sb.nlog⟩ sb.size d ⟨0, fun _ => 0⟩

/-- `fsinit(dev)`: `readsb`, the magic check, `initlog`. -/
def fsinit (d : Disk Block) : Except String (Disk Block × MemHead) :=
  if (readsb d).1 ≠ fsMagic then .error "invalid file system"
  else initlog (readsb d).2 d

/-! ## `readsb` -/

/-- `readsb` reads back the superblock `mkfs` writes, when every field fits
a `uint`. -/
theorem readsb_sbBlock {d : Disk Block} {magic : UInt32} {sb : Superblock}
    (h1 : d 1 = sbBlock magic sb) (hfit : ∀ v ∈ [sb.size, sb.nblocks, sb.ninodes, sb.nlog,
      sb.logstart, sb.inodestart, sb.bmapstart], v < 2 ^ 32) :
    readsb d = (magic, sb) := by
  have hof : ∀ v ∈ [sb.size, sb.nblocks, sb.ninodes, sb.nlog, sb.logstart, sb.inodestart,
      sb.bmapstart], (UInt32.ofNat v).toNat = v := fun v hv => by
    rw [UInt32.toNat_ofNat']
    exact Nat.mod_eq_of_lt (hfit v hv)
  simp only [List.mem_cons, List.not_mem_nil, or_false, forall_eq_or_imp, forall_eq] at hof
  -- each field reads back its own store; the stores after it are disjoint from it
  rw [readsb, h1, sbBlock]
  simp (disch := decide) only [Bytes.getU32_setU32_of_disjoint, Bytes.getU32_setU32_self]
  simp only [hof]

/-! ## A header past `LOGSIZE` -/

/-- The loop of `read_head` from any `i ≤ LOGSIZE`, when `n` exceeds
`LOGSIZE`: the entries up to `LOGSIZE` are read from inside the header block,
and the store at `LOGSIZE` falls past the end of `log.lh.block`. The
induction is on the passes left before index `LOGSIZE`. -/
theorem readHeadLoop_error_of_gt (hb : Block) {n : Int} (hn : (logSize : Int) < n) (k : Nat) :
    ∀ (blk : HeadBlocks) (i : Nat), i + k = logSize →
      Checked.readHeadLoop hb n blk i = .error "write past the end of log.lh.block" := by
  have hread : ∀ i, i ≤ logSize → hb.loadU32 (4 * (i + 1)) = .ok (hb.getU32 (4 * (i + 1))) :=
    fun i hi => Bytes.loadU32_of_le (by simp only [bsize_eq, logSize_eq] at hi ⊢; omega)
  induction k with
  | zero =>
    intro blk i hi
    rw [Checked.readHeadLoop, if_pos (by omega), hread i (by omega)]
    simp only [bind, Except.bind, HeadBlocks.store_of_ge blk (show ¬i < logSize by omega)]
  | succ k ih =>
    intro blk i hi
    rw [Checked.readHeadLoop, if_pos (by omega), hread i (by omega)]
    simp only [bind, Except.bind, HeadBlocks.store_of_lt blk (show i < logSize by omega)]
    exact ih _ (i + 1) (by omega)

/-- `read_head` on a header whose `n` exceeds `LOGSIZE` writes past the end
of `log.lh.block`, whatever `log.lh` held before. -/
theorem readHead_error_of_gt (L : LogLoc) {size : Nat} (hstart : L.start < size) (d : Disk Block)
    (lh : MemHead) (hn : (logSize : Int) < headerN (d L.start)) :
    Checked.readHead L size d lh = .error "write past the end of log.lh.block" := by
  -- `lh->n` is `headerN`, read from inside the block
  have hn' : (logSize : Int) < intOfWord ((d L.start).getU32 0) := hn
  rw [Checked.readHead, bread_of_lt d hstart]
  simp only [bind, Except.bind, Bytes.loadU32_of_le (show 0 + 4 ≤ bsize by decide),
    readHeadLoop_error_of_gt _ hn' logSize _ 0 (Nat.zero_add _)]

/-- At boot: on an image whose superblock passes the magic check and puts the
log header inside the disk, a header whose `n` exceeds `LOGSIZE` makes
`fsinit` write past the end of `log.lh.block`. -/
theorem fsinit_error_of_gt {d : Disk Block} (hmagic : (readsb d).1 = fsMagic)
    (hstart : (readsb d).2.logstart < (readsb d).2.size)
    (hn : (logSize : Int) < headerN (d (readsb d).2.logstart)) :
    fsinit d = .error "write past the end of log.lh.block" := by
  rw [fsinit, if_neg (not_not.mpr hmagic), initlog, if_neg (by decide), Checked.recoverFromLog,
    readHead_error_of_gt ⟨(readsb d).2.logstart, (readsb d).2.nlog⟩ hstart d _ hn]
  rfl

/-- The image `mkfs` writes, with a header block whose `n` is `31`. -/
theorem fsinit_header_overflow :
    fsinit (fun b => if b = 1 then sbBlock fsMagic mkfsSb
      else if b = 2 then (Bytes.zero : Block).setU32 0 31 else Bytes.zero) =
      .error "write past the end of log.lh.block" := by
  set d : Disk Block := fun b => if b = 1 then sbBlock fsMagic mkfsSb
    else if b = 2 then (Bytes.zero : Block).setU32 0 31 else Bytes.zero with hd
  have hsb : readsb d = (fsMagic, mkfsSb) := readsb_sbBlock rfl (by decide)
  have hhead : headerN (d mkfsSb.logstart) = 31 := by
    rw [headerN, show d mkfsSb.logstart = (Bytes.zero : Block).setU32 0 31 from rfl,
      Bytes.getU32_setU32_self _ (by decide)]
    decide
  apply fsinit_error_of_gt
  · rw [hsb]
  · rw [hsb]
    decide
  · rw [hsb, hhead]
    decide

/-! ## A header that fits: the checked recovery refines `recovered` -/

/-- On a header that fits `log.lh.block`, the loop of `read_head` from `i`
copies the entries `i .. n` of the header block and leaves the others. -/
theorem readHeadLoop_ok (hb : Block) {n : Int} (hn : n ≤ logSize) (blk : HeadBlocks) (i : Nat) :
    Checked.readHeadLoop hb n blk i =
      .ok fun j => if i ≤ j.val ∧ (j.val : Int) < n then headerBlock hb j.val else blk j := by
  fun_induction Checked.readHeadLoop hb n blk i with
  | case1 blk i hi ih =>
    have hi' : i < logSize := by omega
    rw [Bytes.loadU32_of_le (by simp only [bsize_eq, logSize_eq] at hi' ⊢; omega)]
    simp only [bind, Except.bind, HeadBlocks.store_of_lt blk hi', ih]
    congr 1
    funext j
    -- entry `i` is the one this pass copies; the others are as the rest of the loop leaves them
    rw [Function.update_apply]
    by_cases hj : j.val = i
    · have hji : j = ⟨i, hi'⟩ := Fin.ext hj
      simp only [hji, if_true]
      rw [if_neg (by omega), if_pos ⟨le_refl i, hi⟩]
      rfl
    · have hji : j ≠ ⟨i, hi'⟩ := fun h => hj (congrArg Fin.val h)
      simp only [hji, if_false]
      exact if_congr (by omega) rfl rfl
  | case2 blk i hi =>
    congr 1
    funext j
    rw [if_neg (by omega)]

/-- On a header that fits `log.lh.block` and names blocks of the disk, the
loop of `install_trans(1)` from `tail` makes the writes of `installTrans` for
the entries from `tail` on. -/
theorem installTransLoop_eq (L : LogLoc) {size : Nat} (lh : MemHead) (bs : List UInt32)
    (hn : lh.n.toNat = bs.length) (hblk : ∀ j (h : j < bs.length), lh.block.load j = .ok bs[j])
    (hslots : L.start + bs.length < size) (hdst : ∀ b ∈ bs, b.toNat < size)
    (d : Disk Block) (tail : Nat) :
    Checked.installTransLoop L size lh d tail = .ok (Write.run (installTrans L tail (bs.drop tail)) d) := by
  fun_induction Checked.installTransLoop L size lh d tail with
  | case1 d tail ht ih =>
    have htl : tail < bs.length := by omega
    rw [List.drop_eq_getElem_cons htl, installTrans, Write.run_cons]
    simp only [bind, Except.bind, bread_of_lt d (show L.start + tail + 1 < size by omega), hblk tail htl,
      bread_of_lt d (hdst _ (List.getElem_mem htl)), ih]
    rfl
  | case2 d tail ht =>
    rw [List.drop_eq_nil_of_le (by omega)]
    rfl

/-- `write_head` with `log.lh.n = 0` is the write `writeHead` of the empty
header. -/
theorem writeHead_empty (L : LogLoc) {size : Nat} (hstart : L.start < size) (blk : HeadBlocks)
    (d : Disk Block) : Checked.writeHead L size ⟨0, blk⟩ d = .ok ((writeHead L LogHeader.empty).apply d) := by
  have hloop : ∀ hb, Checked.writeHeadLoop ⟨0, blk⟩ hb 0 = .ok hb := fun hb => by
    rw [Checked.writeHeadLoop]
    exact if_neg (by simp)
  rw [Checked.writeHead, bread_of_lt d hstart]
  simp only [bind, Except.bind, Bytes.storeU32_of_le (show 0 + 4 ≤ bsize by decide), hloop]
  rfl

/-- On a header that fits `log.lh.block`, whose log slots and home blocks
lie inside the disk, the checked recovery succeeds, whatever `log.lh` held,
and leaves the disk `recovered` describes. -/
theorem recoverFromLog_eq_recovered (L : LogLoc) {size : Nat} (d : Disk Block) (lh : MemHead)
    (hstart : L.start < size) (hn : headerN (d L.start) ≤ logSize)
    (hslots : L.start + (readHead L d).n < size) (hdst : ∀ b ∈ (readHead L d).block, b.toNat < size) :
    (Checked.recoverFromLog L size d lh).map Prod.fst = .ok (recovered L d) := by
  set bs := (readHead L d).block with hbs
  have hlen : bs.length = (headerN (d L.start)).toNat := by simp [hbs, readHead, decodeHead]
  -- `read_head` copies `block[0..n)` of the header block
  set blk : HeadBlocks := fun j => if 0 ≤ j.val ∧ (j.val : Int) < headerN (d L.start) then
    headerBlock (d L.start) j.val else lh.block j with hblkdef
  have hread : Checked.readHead L size d lh = .ok ⟨headerN (d L.start), blk⟩ := by
    rw [Checked.readHead, bread_of_lt d hstart]
    simp only [bind, Except.bind, Bytes.loadU32_of_le (show 0 + 4 ≤ bsize by decide)]
    -- `lh->n` is `headerN`
    rw [readHeadLoop_ok _ (show intOfWord ((d L.start).getU32 0) ≤ logSize from hn)]
    rfl
  have hblk : ∀ j (h : j < bs.length), HeadBlocks.load blk j = .ok bs[j] := by
    intro j hj
    have hj' : j < logSize := by omega
    rw [HeadBlocks.load_of_lt blk hj']
    simp only [hblkdef, hbs, readHead, decodeHead, List.getElem_map, List.getElem_range]
    rw [if_pos ⟨Nat.zero_le j, by omega⟩]
  have hinst := installTransLoop_eq L ⟨headerN (d L.start), blk⟩ bs hlen.symm hblk
    (by simpa [LogHeader.n] using hslots) hdst d 0
  rw [Checked.recoverFromLog, hread]
  simp only [bind, Except.bind, List.drop_zero] at hinst ⊢
  rw [hinst]
  simp only [writeHead_empty L hstart]
  rw [recovered, recoverFromLog, Write.run_append, Write.run_cons, Write.run_nil]
  rfl

end Xv6.Kernel
