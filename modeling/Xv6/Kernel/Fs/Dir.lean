import Xv6.Kernel.Fs.System

/-!
# The inode table, directories and paths (`kernel/fs.c`)

`itable.inode[NINODE]` holds the inodes in use: each entry names an inode
number, counts its references and says whether its copy has been read. The
copy is the on-disk record itself here, as in `Xv6.Kernel.Fs.Inode`: every
change to it but the allocation in `readi`'s `bmap` is written back by
`iupdate` before the inode is unlocked. An entry keeps only its number, its
count and its `valid` flag.

A directory is a file of 16-byte entries, a 2-byte inode number and a 14-byte
name. `dirlookup` and `dirlink` read and write them through `readi` and
`writei`; `namex` walks a path one element at a time from the root or from the
current directory, holding a reference to the inode it stands on.
-/

namespace Xv6.Kernel

open Xv6.Lib

/-- `NINODE`: maximum number of active i-nodes. -/
def nInode : Nat := 50

instance : NeZero nInode := ⟨by decide⟩

/-- An entry of `itable.inode[]`. -/
structure IEntry where
  inum : Nat
  ref : Nat
  valid : Bool

/-- A pointer to an entry of the inode table. -/
abbrev Iptr := Fin nInode

/-- The disk and the inode table. -/
structure Kfs where
  fs : FsState
  itable : Iptr → IEntry

namespace Kfs

def setEntry (k : Kfs) (ip : Iptr) (e : IEntry) : Kfs :=
  { k with itable := Function.update k.itable ip e }

def setFs (k : Kfs) (fs : FsState) : Kfs := { k with fs := fs }

-- The two accessors are abbreviations: the kernel then unfolds them before it
-- compares two inode numbers, instead of comparing the states they read from.

/-- `ip->inum`. -/
abbrev inum (k : Kfs) (ip : Iptr) : Nat := (k.itable ip).inum

/-- The record of the inode an entry holds. -/
abbrev ino (k : Kfs) (ip : Iptr) : DInode := k.fs.inodes (k.inum ip)

@[simp] theorem setEntry_fs (k : Kfs) (ip : Iptr) (e : IEntry) : (k.setEntry ip e).fs = k.fs := rfl
@[simp] theorem setFs_fs (k : Kfs) (fs : FsState) : (k.setFs fs).fs = fs := rfl
@[simp] theorem setFs_itable (k : Kfs) (fs : FsState) : (k.setFs fs).itable = k.itable := rfl

/-- `iget(dev, inum)`: the entry holding `inum` with one more reference, or the
first entry with none, recycled for it. -/
def iget (k : Kfs) (inum : Nat) : Except String (Iptr × Kfs) :=
  match (List.finRange nInode).find? fun ip => 0 < (k.itable ip).ref && (k.itable ip).inum == inum with
  | some ip => .ok (ip, k.setEntry ip { k.itable ip with ref := (k.itable ip).ref + 1 })
  | none =>
    match (List.finRange nInode).find? fun ip => (k.itable ip).ref == 0 with
    | some ip => .ok (ip, k.setEntry ip ⟨inum, 1, false⟩)
    | none => .error "iget: no inodes"

/-- `idup(ip)`. -/
def idup (k : Kfs) (ip : Iptr) : Kfs :=
  k.setEntry ip { k.itable ip with ref := (k.itable ip).ref + 1 }

/-- `ilock(ip)`: reads the record if the copy is not valid, and panics when it is free. -/
def ilock (k : Kfs) (ip : Iptr) : Except String Kfs :=
  if (k.itable ip).ref < 1 then .error "ilock"
  else if (k.itable ip).valid then .ok k
  else if (k.ino ip).type = 0 then .error "ilock: no type"
  else .ok (k.setEntry ip { k.itable ip with valid := true })

/-- `iunlock(ip)`. -/
def iunlock (k : Kfs) (ip : Iptr) : Except String Unit :=
  if (k.itable ip).ref < 1 then .error "iunlock" else .ok ()

/-- `iput(ip)`: the last reference to an inode with no links truncates and frees it. -/
def iput (sb : Superblock) (k : Kfs) (ip : Iptr) : Except String Kfs := do
  let e := k.itable ip
  let k ← if e.ref = 1 ∧ e.valid = true ∧ (k.ino ip).nlink = 0 then do
      -- `itrunc(ip); ip->type = 0; iupdate(ip); ip->valid = 0`
      let fs ← ifree sb k.fs e.inum
      pure ((k.setFs fs).setEntry ip { e with valid := false })
    else pure k
  pure (k.setEntry ip { k.itable ip with ref := (k.itable ip).ref - 1 })

/-- `iunlockput(ip)`. -/
def iunlockput (sb : Superblock) (k : Kfs) (ip : Iptr) : Except String Kfs := do
  k.iunlock ip
  k.iput sb ip

/-- `ip->nlink = nlink; iupdate(ip)`. -/
def setNlink (sb : Superblock) (k : Kfs) (ip : Iptr) (nlink : Int16) : Kfs :=
  k.setFs ((k.fs.setInode (k.inum ip) { k.ino ip with nlink := nlink }).iupdate sb (k.inum ip))

end Kfs

/-! ## Directory entries -/

/-- `struct dirent`, as read from its 16 bytes. -/
structure Dirent where
  inum : Nat
  name : List UInt8

def Dirent.decode (b : List UInt8) : Dirent :=
  ⟨(b.getD 0 0).toNat + 256 * (b.getD 1 0).toNat, b.drop 2⟩

/-- `namecmp(s, t) == 0`: `strncmp(s, t, DIRSIZ)` finds the names equal up to
their first `NUL` within `DIRSIZ` bytes. -/
def namecmp (s t : List UInt8) : Bool :=
  (s.take dirsiz).takeWhile (· != 0) == (t.take dirsiz).takeWhile (· != 0)

section Dir

variable (sb : Superblock)

/-- The loop of `dirlookup` from offset `off`, `fuel` entries left. -/
def dirlookupLoop (dp : Iptr) (name : List UInt8) :
    Kfs → UInt32 → Nat → Except String (Option (Iptr × UInt32) × Kfs)
  | k, _, 0 => .ok (none, k)
  | k, off, fuel + 1 =>
    if off < (k.ino dp).size then do
      let (cnt, b, fs) ← readi sb k.fs (k.inum dp) (fun _ => true) off 16
      let k := k.setFs fs
      if cnt ≠ 16 then .error "dirlookup read"
      else
        let de := Dirent.decode b
        if de.inum = 0 then dirlookupLoop dp name k (off + 16) fuel
        else if namecmp name de.name then do
          let (ip, k) ← k.iget de.inum
          pure (some (ip, off), k)
        else dirlookupLoop dp name k (off + 16) fuel
    else .ok (none, k)

/-- `dirlookup(dp, name, &poff)`: the entry naming `name`, referenced, and its
offset. Each pass reads one entry, so `size / 16 + 1` passes finish the loop. -/
def dirlookup (k : Kfs) (dp : Iptr) (name : List UInt8) :
    Except String (Option (Iptr × UInt32) × Kfs) :=
  if (k.ino dp).type ≠ tDir then .error "dirlookup not DIR"
  else dirlookupLoop sb dp name k 0 ((k.ino dp).size.toNat / 16 + 1)

/-- The scan of `dirlink` for an empty entry: the offset of the first one, or
the offset past the last entry. -/
def dirlinkScan (dp : Iptr) : Kfs → UInt32 → Nat → Except String (UInt32 × Kfs)
  | k, off, 0 => .ok (off, k)
  | k, off, fuel + 1 =>
    if off < (k.ino dp).size then do
      let (cnt, b, fs) ← readi sb k.fs (k.inum dp) (fun _ => true) off 16
      let k := k.setFs fs
      if cnt ≠ 16 then .error "dirlink read"
      else if (Dirent.decode b).inum = 0 then .ok (off, k)
      else dirlinkScan dp k (off + 16) fuel
    else .ok (off, k)

/-- `dirlink(dp, name, inum)`: `0`, or `-1` when the name is present or the
entry could not be written. -/
def dirlink (k : Kfs) (dp : Iptr) (name : List UInt8) (inum : Nat) : Except String (Int × Kfs) := do
  let (r, k) ← dirlookup sb k dp name
  match r with
  | some (ip, _) =>
    let k ← k.iput sb ip
    pure (-1, k)
  | none =>
    let (off, k) ← dirlinkScan sb dp k 0 ((k.ino dp).size.toNat / 16 + 1)
    let de := direntBytes inum name
    let (cnt, fs) ← writei sb k.fs (k.inum dp) (fun p => de[p]?) off 16
    pure (if cnt ≠ 16 then -1 else 0, k.setFs fs)

/-! ## Paths -/

/-- `skipelem(path, name)`: the next element, cut to `DIRSIZ` bytes, and the
rest of the path without its leading slashes; `none` when no element is left. -/
def skipelem (path : List UInt8) : Option (List UInt8 × List UInt8) :=
  match path.dropWhile (· == 47) with
  | [] => none
  | p => some ((p.takeWhile (· != 47)).take dirsiz, (p.dropWhile (· != 47)).dropWhile (· == 47))

/-- The loop of `namex`, standing on `ip` (referenced, unlocked) with `path`
left; `name` is the last element taken. Every pass takes at least one byte of
the path, so `namex` starts the fuel at the path's length and it never runs
out. -/
def namexLoop (parent : Bool) :
    Kfs → Iptr → List UInt8 → List UInt8 → Nat → Except String (Option (Iptr × List UInt8) × Kfs)
  | k, ip, path, name, fuel =>
    match skipelem path, fuel with
    | none, _ =>
      if parent then do
        let k ← k.iput sb ip
        pure (none, k)
      else pure (some (ip, name), k)
    | some _, 0 => .ok (none, k)
    | some (name, rest), fuel + 1 => do
      let k ← k.ilock ip
      if (k.ino ip).type ≠ tDir then do
        let k ← k.iunlockput sb ip
        pure (none, k)
      else if parent ∧ rest = [] then do
        -- stop one level early
        k.iunlock ip
        pure (some (ip, name), k)
      else do
        let (r, k) ← dirlookup sb k ip name
        match r with
        | none =>
          let k ← k.iunlockput sb ip
          pure (none, k)
        | some (next, _) =>
          let k ← k.iunlockput sb ip
          namexLoop parent k next rest name fuel

/-- `namex(path, nameiparent, name)`, from the current directory `cwd`. -/
def namex (k : Kfs) (cwd : Iptr) (path : List UInt8) (parent : Bool) :
    Except String (Option (Iptr × List UInt8) × Kfs) := do
  let (ip, k) ← if path.head? = some 47 then k.iget rootino else pure (cwd, k.idup cwd)
  namexLoop sb parent k ip path [] path.length

/-- `namei(path)`. -/
def namei (k : Kfs) (cwd : Iptr) (path : List UInt8) : Except String (Option Iptr × Kfs) := do
  let (r, k) ← namex sb k cwd path false
  pure (r.map Prod.fst, k)

/-- `nameiparent(path, name)`: the parent directory and the last element. -/
def nameiparent (k : Kfs) (cwd : Iptr) (path : List UInt8) :
    Except String (Option (Iptr × List UInt8) × Kfs) :=
  namex sb k cwd path true

end Dir

end Xv6.Kernel
