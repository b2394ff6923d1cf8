import Xv6.Kernel.Fs.Dir

/-!
# The file-system system calls (`kernel/sysfile.c`, `kernel/file.c`)

The calls that change the namespace and the references to inodes and pipes:
`open`, `close`, `dup`, `pipe`, `link`, `unlink`, `mkdir`, `mknod`, `chdir`,
and the file-system part of `fork` and `exit`. A process holds a reference
to its current directory and, through the file table, one to each inode or
pipe end it has open; `iput` frees an unlinked inode only when the last of
them goes, and `pipeclose` frees a pipe once both of its ends are closed.

The system starts from the image `mkfs` built, as `userinit` leaves it: one
process, whose current directory is the root, referenced by the first entry
of the inode table.

Besides the kernel's own state, `Ksys` counts, for each file, the inode
references `open` put in it and those `fileclose` gave back, and for each
pipe, the calls of `pipeclose` on each end and of `kfree` on its page: what
the claims about closing "exactly once" are stated over.
-/

namespace Xv6.Kernel

open Xv6.Lib

/-- `NOFILE`: open files per process. -/
def noFile : Nat := 16

/-- `NFILE`: open files per system. -/
def nFile : Nat := 100

/-- `NDEV`: maximum major device number. -/
def nDev : Int := 10

/-- `MAXPATH`: maximum file path name. -/
def maxPath : Nat := 128

def oRdonly : UInt32 := 0x000
def oCreate : UInt32 := 0x200
def oTrunc : UInt32 := 0x400

/-- What a `struct file` refers to: nothing (`FD_NONE`), one end of a pipe
(`FD_PIPE`, the write end when `writable`), or an inode (`FD_INODE` and
`FD_DEVICE`, which the modelled calls treat alike). -/
inductive FileKind where
  | none
  | pipe (pi : Nat) (writable : Bool)
  | inode (ip : Iptr)
  deriving DecidableEq

/-- The fields of `struct file` the modelled calls read. -/
structure File where
  ref : Nat
  kind : FileKind

/-- The ends of a pipe still open: `pi->readopen`, `pi->writeopen`. -/
structure PipeEnds where
  readopen : Bool
  writeopen : Bool
  deriving DecidableEq

abbrev Fptr := Fin nFile

/-- What a process holds of the file system: `p->cwd` and `p->ofile[]`. -/
structure Proc where
  cwd : Iptr
  ofile : Fin noFile → Option Fptr

/-- The kernel's file-system state: the disk and the inode table, the major
numbers written on the disk's inodes, the file table, the processes, the
pipes `kalloc` gave pages to and `kfree` has not taken back, and the page the
next pipe gets (one no pipe has had); then the counts of inode references
put in and given back per file, of `pipeclose` calls per pipe end and of
`kfree` calls per pipe. -/
structure Ksys where
  kfs : Kfs
  major : Nat → Int
  ftable : Fptr → File
  procs : Fin nProc → Option Proc
  pipes : Nat → Option PipeEnds
  nextPipe : Nat
  iopens : Fptr → Nat
  iputs : Fptr → Nat
  pcloses : Nat × Bool → Nat
  pfrees : Nat → Nat

namespace Ksys

def setKfs (s : Ksys) (k : Kfs) : Ksys := { s with kfs := k }

def setFile (s : Ksys) (f : Fptr) (e : File) : Ksys :=
  { s with ftable := Function.update s.ftable f e }

def setProc (s : Ksys) (pid : Fin nProc) (p : Option Proc) : Ksys :=
  { s with procs := Function.update s.procs pid p }

@[simp] theorem setKfs_kfs (s : Ksys) (k : Kfs) : (s.setKfs k).kfs = k := rfl

@[simp] theorem setFile_ftable (s : Ksys) (f : Fptr) (e : File) :
    (s.setFile f e).ftable = Function.update s.ftable f e := rfl

@[simp] theorem setProc_procs (s : Ksys) (pid : Fin nProc) (p : Option Proc) :
    (s.setProc pid p).procs = Function.update s.procs pid p := rfl

@[simp] theorem setProc_setProc (s : Ksys) (pid : Fin nProc) (p q : Option Proc) :
    (s.setProc pid p).setProc pid q = s.setProc pid q := by
  simp [setProc]

end Ksys

section Sysfile

variable (sb : Superblock)

/-! ## `create` -/

/-- The end of `create` once the new inode `ip` is written: the `.` and `..`
entries of a directory, the entry in `dp`, and the `fail` path that gives the
inode back. -/
def createLink (s : Ksys) (dp ip : Iptr) (name : List UInt8) (type : Int) :
    Except String (Option Iptr × Ksys) := do
  let k := s.kfs
  -- `dirlink(ip, ".", ip->inum) < 0 || dirlink(ip, "..", dp->inum) < 0`
  let (ok, k) ← if type = tDir then do
      let (r, k) ← dirlink sb k ip [46] (k.inum ip)
      if r < 0 then pure (false, k)
      else do
        let (r, k) ← dirlink sb k ip [46, 46] (k.inum dp)
        pure (decide (0 ≤ r), k)
    else pure (true, k)
  let (ok, k) ← if ok then do
      let (r, k) ← dirlink sb k dp name (k.inum ip)
      pure (decide (0 ≤ r), k)
    else pure (false, k)
  if ok then do
    -- `dp->nlink++` for `..`
    let k := if type = tDir then k.setNlink sb dp ((k.ino dp).nlink + 1) else k
    let k ← k.iunlockput sb dp
    pure (some ip, s.setKfs k)
  else do
    -- `fail`: `ip->nlink = 0; iupdate(ip); iunlockput(ip); iunlockput(dp)`
    let k := k.setNlink sb ip 0
    let k ← k.iunlockput sb ip
    let k ← k.iunlockput sb dp
    pure (none, s.setKfs k)

/-- `create(path, type, major, minor)`: the inode, locked and referenced, or
`none` for `0`. -/
def create (s : Ksys) (cwd : Iptr) (path : List UInt8) (type major : Int) :
    Except String (Option Iptr × Ksys) := do
  let (r, k) ← nameiparent sb s.kfs cwd path
  match r with
  | none => pure (none, s.setKfs k)
  | some (dp, name) =>
    let k ← k.ilock dp
    let (r, k) ← dirlookup sb k dp name
    match r with
    | some (ip, _) =>
      let k ← k.iunlockput sb dp
      let k ← k.ilock ip
      if type = tFile ∧ ((k.ino ip).type = tFile ∨ (k.ino ip).type = tDevice) then
        pure (some ip, s.setKfs k)
      else do
        let k ← k.iunlockput sb ip
        pure (none, s.setKfs k)
    | none =>
      let (inum, fs) := ialloc sb k.fs type
      let k := k.setFs fs
      if inum = 0 then do
        let k ← k.iunlockput sb dp
        pure (none, s.setKfs k)
      else do
        let (ip, k) ← k.iget inum
        let k ← k.ilock ip
        -- `ip->major = major; ip->minor = minor; ip->nlink = 1; iupdate(ip)`
        let k := k.setNlink sb ip 1
        createLink sb { s.setKfs k with major := Function.update s.major inum major } dp ip name type

/-! ## Files and pipes -/

/-- `filealloc()`: the first file with no reference. -/
def filealloc (s : Ksys) : Option (Fptr × Ksys) :=
  ((List.finRange nFile).find? fun f => (s.ftable f).ref == 0).map fun f =>
    (f, s.setFile f { s.ftable f with ref := 1 })

/-- `fdalloc(f)`: the first free descriptor of the process. -/
def fdalloc (p : Proc) (f : Fptr) : Option (Fin noFile × Proc) :=
  ((List.finRange noFile).find? fun fd => (p.ofile fd).isNone).map fun fd =>
    (fd, { p with ofile := Function.update p.ofile fd (some f) })

/-- `pipeclose(pi, writable)`: one end closed, and the page freed once both
are. A pipe whose page was freed has no state left to close. -/
def pipeclose (s : Ksys) (pi : Nat) (writable : Bool) : Except String Ksys :=
  match s.pipes pi with
  | none => .error "pipeclose: freed pipe"
  | some e =>
    let e : PipeEnds := if writable then { e with writeopen := false } else { e with readopen := false }
    let s := { s with pcloses := Function.update s.pcloses (pi, writable) (s.pcloses (pi, writable) + 1) }
    if ¬ e.readopen ∧ ¬ e.writeopen then
      -- `kfree((char *)pi)`
      .ok { s with pipes := Function.update s.pipes pi none,
                   pfrees := Function.update s.pfrees pi (s.pfrees pi + 1) }
    else .ok { s with pipes := Function.update s.pipes pi (some e) }

/-- `fileclose(f)`: the last reference closes the pipe end or drops the inode. -/
def fileclose (s : Ksys) (f : Fptr) : Except String Ksys :=
  let e := s.ftable f
  if e.ref < 1 then .error "fileclose"
  else if 0 < e.ref - 1 then .ok (s.setFile f { e with ref := e.ref - 1 })
  else
    let s := s.setFile f ⟨0, .none⟩
    match e.kind with
    | .none => .ok s
    | .pipe pi w => pipeclose s pi w
    | .inode ip => do
      let k ← s.kfs.iput sb ip
      pure { s.setKfs k with iputs := Function.update s.iputs f (s.iputs f + 1) }

/-- `filedup(f)`. -/
def filedup (s : Ksys) (f : Fptr) : Except String Ksys :=
  if (s.ftable f).ref < 1 then .error "filedup"
  else .ok (s.setFile f { s.ftable f with ref := (s.ftable f).ref + 1 })

/-- `pipealloc(&f0, &f1)`: two files and a page for the pipe, or, at `bad`,
the files given back; `kalloc` finds a page when `page` is true. -/
def pipealloc (s : Ksys) (page : Bool) : Except String (Option (Fptr × Fptr) × Ksys) :=
  match filealloc s with
  | none => .ok (none, s)
  | some (f0, s) =>
    match filealloc s with
    | none => do
      let s ← fileclose sb s f0
      pure (none, s)
    | some (f1, s) =>
      if page then
        let pi := s.nextPipe
        let s := { s with pipes := Function.update s.pipes pi (some ⟨true, true⟩), nextPipe := pi + 1 }
        let s := s.setFile f0 { s.ftable f0 with kind := .pipe pi false }
        let s := s.setFile f1 { s.ftable f1 with kind := .pipe pi true }
        .ok (some (f0, f1), s)
      else do
        let s ← fileclose sb s f0
        let s ← fileclose sb s f1
        pure (none, s)

/-! ## The calls -/

/-- `sys_open(path, omode)`, from process `p`. -/
def sysOpen (s : Ksys) (pid : Fin nProc) (p : Proc) (path : List UInt8) (omode : UInt32) :
    Except String (Int × Ksys) :=
  if maxPath ≤ path.length then .ok (-1, s)
  else do
    let (r, s) ← if omode &&& oCreate ≠ 0 then create sb s p.cwd path tFile 0
      else do
        let (r, k) ← namei sb s.kfs p.cwd path
        match r with
        | none => pure (none, s.setKfs k)
        | some ip =>
          let k ← k.ilock ip
          if (k.ino ip).type = tDir ∧ omode ≠ oRdonly then do
            let k ← k.iunlockput sb ip
            pure (none, s.setKfs k)
          else pure (some ip, s.setKfs k)
    match r with
    | none => pure (-1, s)
    | some ip =>
      let k := s.kfs
      if (k.ino ip).type = tDevice ∧ (s.major (k.inum ip) < 0 ∨ nDev ≤ s.major (k.inum ip)) then do
        let k ← k.iunlockput sb ip
        pure (-1, s.setKfs k)
      else
        match filealloc s with
        | none => do
          let k ← k.iunlockput sb ip
          pure (-1, s.setKfs k)
        | some (f, s) =>
          match fdalloc p f with
          | none => do
            -- `fileclose(f)` of a file with no inode yet
            let s ← fileclose sb s f
            let k ← s.kfs.iunlockput sb ip
            pure (-1, s.setKfs k)
          | some (fd, p) => do
            let s := { (s.setFile f ⟨1, .inode ip⟩).setProc pid (some p) with
              iopens := Function.update s.iopens f (s.iopens f + 1) }
            let k := s.kfs
            let k ← if omode &&& oTrunc ≠ 0 ∧ (k.ino ip).type = tFile then do
                let fs ← itrunc sb k.fs (k.inum ip)
                pure (k.setFs fs)
              else pure k
            k.iunlock ip
            pure (fd.val, s.setKfs k)

/-- `sys_close(fd)`. -/
def sysClose (s : Ksys) (pid : Fin nProc) (p : Proc) (fd : Int) : Except String (Int × Ksys) :=
  if h : 0 ≤ fd ∧ fd < noFile then
    let fd : Fin noFile := ⟨fd.toNat, by omega⟩
    match p.ofile fd with
    | none => .ok (-1, s)
    | some f => do
      let s := s.setProc pid (some { p with ofile := Function.update p.ofile fd none })
      let s ← fileclose sb s f
      pure (0, s)
  else .ok (-1, s)

/-- `sys_dup(fd)`. -/
def sysDup (s : Ksys) (pid : Fin nProc) (p : Proc) (fd : Int) : Except String (Int × Ksys) :=
  if h : 0 ≤ fd ∧ fd < noFile then
    match p.ofile ⟨fd.toNat, by omega⟩ with
    | none => .ok (-1, s)
    | some f =>
      match fdalloc p f with
      | none => .ok (-1, s)
      | some (fd', p) => do
        let s ← filedup (s.setProc pid (some p)) f
        pure (fd'.val, s)
  else .ok (-1, s)

/-- `sys_pipe(fdarray)`: the `copyout` of the two descriptors succeeds when
`copy` is true, and `kalloc` finds a page when `page` is. -/
def sysPipe (s : Ksys) (pid : Fin nProc) (p : Proc) (page copy : Bool) :
    Except String (Int × Ksys) := do
  let (r, s) ← pipealloc sb s page
  match r with
  | none => pure (-1, s)
  | some (rf, wf) =>
    match fdalloc p rf with
    | none => do
      let s ← fileclose sb s rf
      let s ← fileclose sb s wf
      pure (-1, s)
    | some (fd0, p) =>
      let s := s.setProc pid (some p)
      match fdalloc p wf with
      | none => do
        -- `p->ofile[fd0] = 0`
        let s := s.setProc pid (some { p with ofile := Function.update p.ofile fd0 none })
        let s ← fileclose sb s rf
        let s ← fileclose sb s wf
        pure (-1, s)
      | some (fd1, p) =>
        let s := s.setProc pid (some p)
        if copy then pure (0, s)
        else do
          -- `p->ofile[fd0] = 0; p->ofile[fd1] = 0`
          let p := { p with ofile := Function.update (Function.update p.ofile fd0 none) fd1 none }
          let s := s.setProc pid (some p)
          let s ← fileclose sb s rf
          let s ← fileclose sb s wf
          pure (-1, s)

/-- The `bad` path of `sys_link`: the link count taken back. -/
def linkBad (k : Kfs) (ip : Iptr) : Except String Kfs := do
  let k ← k.ilock ip
  let k := k.setNlink sb ip ((k.ino ip).nlink - 1)
  k.iunlockput sb ip

/-- `sys_link(old, new)`. -/
def sysLink (s : Ksys) (p : Proc) (old new : List UInt8) : Except String (Int × Ksys) :=
  if maxPath ≤ old.length ∨ maxPath ≤ new.length then .ok (-1, s)
  else do
    let (r, k) ← namei sb s.kfs p.cwd old
    match r with
    | none => pure (-1, s.setKfs k)
    | some ip =>
      let k ← k.ilock ip
      if (k.ino ip).type = tDir then do
        let k ← k.iunlockput sb ip
        pure (-1, s.setKfs k)
      else do
        let k := k.setNlink sb ip ((k.ino ip).nlink + 1)
        k.iunlock ip
        let (r, k) ← nameiparent sb k p.cwd new
        match r with
        | none => do
          let k ← linkBad sb k ip
          pure (-1, s.setKfs k)
        | some (dp, name) =>
          let k ← k.ilock dp
          let (r, k) ← dirlink sb k dp name (k.inum ip)
          if r < 0 then do
            let k ← k.iunlockput sb dp
            let k ← linkBad sb k ip
            pure (-1, s.setKfs k)
          else do
            let k ← k.iunlockput sb dp
            let k ← k.iput sb ip
            pure (0, s.setKfs k)

/-- The loop of `isdirempty` from offset `off`: `false` at the first entry in use. -/
def isdiremptyLoop (dp : Iptr) : Kfs → UInt32 → Nat → Except String (Bool × Kfs)
  | k, _, 0 => .ok (true, k)
  | k, off, fuel + 1 =>
    if off < (k.ino dp).size then do
      let (cnt, b, fs) ← readi sb k.fs (k.inum dp) (fun _ => true) off 16
      let k := k.setFs fs
      if cnt ≠ 16 then .error "isdirempty: readi"
      else if (Dirent.decode b).inum ≠ 0 then .ok (false, k)
      else isdiremptyLoop dp k (off + 16) fuel
    else .ok (true, k)

/-- `isdirempty(dp)`: no entry in use past `.` and `..`. -/
def isdirempty (k : Kfs) (dp : Iptr) : Except String (Bool × Kfs) :=
  isdiremptyLoop sb dp k 32 ((k.ino dp).size.toNat / 16 + 1)

/-- `sys_unlink(path)`. -/
def sysUnlink (s : Ksys) (p : Proc) (path : List UInt8) : Except String (Int × Ksys) :=
  if maxPath ≤ path.length then .ok (-1, s)
  else do
    let (r, k) ← nameiparent sb s.kfs p.cwd path
    match r with
    | none => pure (-1, s.setKfs k)
    | some (dp, name) =>
      let k ← k.ilock dp
      -- cannot unlink `.` or `..`
      if namecmp name [46] ∨ namecmp name [46, 46] then do
        let k ← k.iunlockput sb dp
        pure (-1, s.setKfs k)
      else do
        let (r, k) ← dirlookup sb k dp name
        match r with
        | none => do
          let k ← k.iunlockput sb dp
          pure (-1, s.setKfs k)
        | some (ip, off) =>
          let k ← k.ilock ip
          if (k.ino ip).nlink < 1 then .error "unlink: nlink < 1"
          else do
            let (empty, k) ← if (k.ino ip).type = tDir then isdirempty sb k ip else pure (true, k)
            if ¬empty then do
              let k ← k.iunlockput sb ip
              let k ← k.iunlockput sb dp
              pure (-1, s.setKfs k)
            else do
              let (cnt, fs) ← writei sb k.fs (k.inum dp) (fun _ => some 0) off 16
              let k := k.setFs fs
              if cnt ≠ 16 then .error "unlink: writei"
              else do
                let k := if (k.ino ip).type = tDir then
                  k.setNlink sb dp ((k.ino dp).nlink - 1) else k
                let k ← k.iunlockput sb dp
                let k := k.setNlink sb ip ((k.ino ip).nlink - 1)
                let k ← k.iunlockput sb ip
                pure (0, s.setKfs k)

/-- `sys_mkdir(path)` and `sys_mknod(path, major, minor)`: `create` and let go. -/
def sysMknod (s : Ksys) (p : Proc) (path : List UInt8) (type major : Int) :
    Except String (Int × Ksys) :=
  if maxPath ≤ path.length then .ok (-1, s)
  else do
    let (r, s) ← create sb s p.cwd path type major
    match r with
    | none => pure (-1, s)
    | some ip =>
      let k ← s.kfs.iunlockput sb ip
      pure (0, s.setKfs k)

/-- `sys_chdir(path)`. -/
def sysChdir (s : Ksys) (pid : Fin nProc) (p : Proc) (path : List UInt8) :
    Except String (Int × Ksys) :=
  if maxPath ≤ path.length then .ok (-1, s)
  else do
    let (r, k) ← namei sb s.kfs p.cwd path
    match r with
    | none => pure (-1, s.setKfs k)
    | some ip =>
      let k ← k.ilock ip
      if (k.ino ip).type ≠ tDir then do
        let k ← k.iunlockput sb ip
        pure (-1, s.setKfs k)
      else do
        k.iunlock ip
        let k ← k.iput sb p.cwd
        pure (0, (s.setKfs k).setProc pid (some { p with cwd := ip }))

/-- What `fork` does to the file system: the child, in the first free slot,
shares the parent's files and current directory. -/
def sysFork (s : Ksys) (p : Proc) : Except String (Int × Ksys) :=
  match (List.finRange nProc).find? fun pid => (s.procs pid).isNone with
  | none => .ok (-1, s)
  | some child => do
    let s ← (List.finRange noFile).foldlM
      (fun s fd => match p.ofile fd with
        | none => .ok s
        | some f => filedup s f) s
    let s := s.setKfs (s.kfs.idup p.cwd)
    pure (child.val, s.setProc child (some p))

/-- What `exit` does to the file system: every open file closed, then the
current directory dropped. -/
def sysExit (s : Ksys) (pid : Fin nProc) (p : Proc) : Except String (Int × Ksys) :=
  if pid = 0 then .error "init exiting"
  else do
    let s ← (List.finRange noFile).foldlM
      (fun s fd => match p.ofile fd with
        | none => .ok s
        | some f => fileclose sb s f) s
    let k ← s.kfs.iput sb p.cwd
    pure (0, (s.setKfs k).setProc pid none)

end Sysfile

/-! ## The system -/

/-- A system call of a process. -/
inductive Call where
  | open (path : List UInt8) (omode : UInt32)
  | close (fd : Int)
  | dup (fd : Int)
  | pipe (page copy : Bool)
  | link (old new : List UInt8)
  | unlink (path : List UInt8)
  | mkdir (path : List UInt8)
  | mknod (path : List UInt8) (major minor : Int)
  | chdir (path : List UInt8)
  | fork
  | exit

/-- The call `c` of process `pid`, which is `p`: its return value and the state after it. -/
def sysCall (sb : Superblock) (s : Ksys) (pid : Fin nProc) (p : Proc) : Call →
    Except String (Int × Ksys)
  | .open path omode => sysOpen sb s pid p path omode
  | .close fd => sysClose sb s pid p fd
  | .dup fd => sysDup s pid p fd
  | .pipe page copy => sysPipe sb s pid p page copy
  | .link old new => sysLink sb s p old new
  | .unlink path => sysUnlink sb s p path
  | .mkdir path => sysMknod sb s p path tDir 0
  | .mknod path major _ => sysMknod sb s p path tDevice major
  | .chdir path => sysChdir sb s pid p path
  | .fork => sysFork s p
  | .exit => sysExit sb s pid p

/-- The state `userinit` leaves on the image `fs`: process `0` in the root,
which `namei("/")` put in the first entry of the inode table. -/
def boot (fs : FsState) : Ksys where
  kfs := ⟨fs, fun ip => if ip = 0 then ⟨rootino, 1, false⟩ else ⟨0, 0, false⟩⟩
  major _ := 0
  ftable _ := ⟨0, .none⟩
  procs pid := if pid = 0 then some ⟨0, fun _ => none⟩ else none
  pipes _ := none
  nextPipe := 0
  iopens _ := 0
  iputs _ := 0
  pcloses _ := 0
  pfrees _ := 0

/-- One step: a call of a live process that does not panic. -/
def Ksys.step (sb : Superblock) (s : Ksys) (e : Fin nProc × Call) : Except String Ksys :=
  match s.procs e.1 with
  | none => .error "no process"
  | some p => (sysCall sb s e.1 p e.2).map Prod.snd

/-- The calls of every process, from an image `mkfs` built. -/
def sysfileSys : TSys Ksys (Fin nProc × Call) where
  init s := ∃ files m, mkfsImage files = some m ∧ s = boot m.fs
  step s e s' := s.step mkfsSb e = .ok s'

/-- Calls taken in order; `none` at the first that panics. -/
def Ksys.run (s : Ksys) : List (Fin nProc × Call) → Except String Ksys
  | [] => .ok s
  | e :: es => do
    let s ← s.step mkfsSb e
    Ksys.run s es

theorem Ksys.reachable_of_run {s s' : Ksys} {es : List (Fin nProc × Call)}
    (hs : sysfileSys.Reachable s) (h : s.run es = .ok s') : sysfileSys.Reachable s' := by
  induction es generalizing s with
  | nil =>
    cases h
    exact hs
  | cons e es ih =>
    simp only [Ksys.run] at h
    cases he : s.step mkfsSb e with
    | error msg => simp [he, bind, Except.bind] at h
    | ok s₁ =>
      simp only [he, bind, Except.bind] at h
      exact ih (.step hs he) h

/-! ## Links and directory entries -/

/-- Byte `off` of a file, read through its blocks. -/
def FsState.fileByte (s : FsState) (ino : DInode) (off : Nat) : UInt8 :=
  let b := ino.blockAddr s.disk (off / bsize)
  if b = 0 then 0 else (s.disk b).get (off % bsize)

/-- The entries of directory `d`, one for each 16 bytes of its size. -/
def FsState.dirents (s : FsState) (d : Nat) : List Dirent :=
  (List.range ((s.inodes d).size.toNat / 16)).map fun j =>
    Dirent.decode ((List.range 16).map fun i => s.fileByte (s.inodes d) (16 * j + i))

/-- The live entries naming `x` in directories that still have links, the
`.` of `x` itself not counted. -/
def FsState.linkRefs (sb : Superblock) (s : FsState) (x : Nat) : Nat :=
  ((List.range sb.ninodes).map fun d =>
    if (s.inodes d).type = tDir ∧ 1 ≤ (s.inodes d).nlink then
      ((s.dirents d).filter fun e => e.inum = x ∧ ¬(d = x ∧ namecmp e.name [46])).length
    else 0).sum

/-- The namespace and the link counts agree: every allocated inode but the
root has as many links as live entries name it, and every live entry of a
directory with links names an allocated inode. -/
def LinksConsistent (sb : Superblock) (s : FsState) : Prop :=
  (∀ x < sb.ninodes, x ≠ rootino → (s.inodes x).type ≠ 0 →
    (s.inodes x).nlink.toInt = s.linkRefs sb x) ∧
  (∀ d < sb.ninodes, (s.inodes d).type = tDir → 1 ≤ (s.inodes d).nlink →
    ∀ e ∈ s.dirents d, e.inum ≠ 0 → (s.inodes e.inum).type ≠ 0)

/-- Process `0` makes the directory `d`, moves into it, unlinks it (it is
empty), and creates the file `x` in it: `create` never looks at the parent's
link count. -/
def orphanRun : List (Fin nProc × Call) :=
  [(0, .mkdir [100]), (0, .chdir [100]), (0, .unlink [47, 100]), (0, .open [120] 0x202)]

theorem orphanRun_breaks_links :
    ∃ s, sysfileSys.Reachable s ∧ ¬ LinksConsistent mkfsSb s.kfs.fs := by
  -- the image of no files, then the four calls: `x` is inode 3, with one link
  -- and no entry in a directory that has links
  have hrun : (mkfsImage []).map (fun m => ((boot m.fs).run orphanRun).map fun s =>
      decide ((s.kfs.fs.inodes 3).type = tFile ∧ (s.kfs.fs.inodes 3).nlink = 1 ∧
        s.kfs.fs.linkRefs mkfsSb 3 = 0)) = some (.ok true) := by
    decide +kernel
  cases hm : mkfsImage [] with
  | none =>
    rw [hm] at hrun
    cases hrun
  | some m =>
    rw [hm, Option.map_some, Option.some.injEq] at hrun
    cases hs : (boot m.fs).run orphanRun with
    | error e =>
      rw [hs] at hrun
      cases hrun
    | ok s =>
      rw [hs] at hrun
      have hobs := of_decide_eq_true (Except.ok.inj hrun)
      refine ⟨s, Ksys.reachable_of_run (.init ⟨[], m, hm, rfl⟩) hs, fun hc => ?_⟩
      have hlinks := hc.1 3 (by decide) (by decide) (by rw [hobs.1]; decide)
      rw [hobs.2.1, hobs.2.2] at hlinks
      exact absurd hlinks (by decide)

end Xv6.Kernel
