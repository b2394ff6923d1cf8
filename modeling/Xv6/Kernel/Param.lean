import Mathlib.Algebra.GroupWithZero.Nat
import Mathlib.Tactic.Basic

/-!
# Kernel parameters

The constants of `kernel/param.h` and `kernel/fs.h` that the modelled code
reads. Each is a plain definition under the source's name; `*_eq` lemmas give
its value for `omega` and `decide`.
-/

namespace Xv6.Kernel

/-- `MAXOPBLOCKS`: max # of blocks any FS op writes. -/
def maxOpBlocks : Nat := 10

/-- `LOGSIZE`: max data blocks in on-disk log. -/
def logSize : Nat := maxOpBlocks * 3

/-- `FSSIZE`: size of file system in blocks. -/
def fsSize : Nat := 2000

/-- `BSIZE`: block size in bytes. -/
def bsize : Nat := 1024

/-- `NBUF`: size of disk block cache. -/
def nbuf : Nat := maxOpBlocks * 3

instance : NeZero nbuf := ⟨Nat.succ_ne_zero 29⟩

/-- `ROOTDEV`: device number of file system root disk. -/
def rootdev : Nat := 1

/-- `NCPU`: maximum number of CPUs. -/
def nCpu : Nat := 8

instance : NeZero nCpu := ⟨Nat.succ_ne_zero 7⟩

/-- `NPROC`: maximum number of processes. -/
def nProc : Nat := 64

instance : NeZero nProc := ⟨Nat.succ_ne_zero 63⟩

theorem maxOpBlocks_eq : maxOpBlocks = 10 := rfl

theorem logSize_eq : logSize = 30 := rfl

theorem bsize_eq : bsize = 1024 := rfl

theorem nbuf_eq : nbuf = 30 := rfl

end Xv6.Kernel
