import Xv6.Kernel.Fs.Content
import Xv6.Lib.Splice

/-!
# Reading and writing an inode through a file (`kernel/file.c`)

`fileread` and `filewrite` on an `FD_INODE` file move bytes at the file's
offset `off` and advance it by the count moved. `filewrite` does not hand its
`n` bytes to one `writei`: each call writes at most
`((MAXOPBLOCKS-1-1-2)/2)*BSIZE` bytes inside a transaction of its own, so that
the blocks of one transaction fit in the log, and the loop stops at the first
short write. `ilock` and `iunlock` only lock the inode, and `begin_op` starts a
new operation, whose `log_write` calls `FsState.logged` records. The `FD_PIPE`
and `FD_DEVICE` paths are `piperead`/`pipewrite` and the device's
`read`/`write`, modelled with the pipe and the console.

* `filewrite_content`: from a state of the allocator's invariant, writing `n`
  bytes through the file at `off ≤ size` with `off + n ≤ MAXFILE*BSIZE` does
  what one `writei` of all `n` bytes does: it returns `n`, advances the offset
  by `n`, sets the size to `max(size, off + n)` and replaces bytes
  `[off, off + n)` of the file; or it returns `-1`, the disk being full.
* `fileread_content`: reading `n` bytes returns the `min(n, size - off)` bytes
  of the file from `off` and advances the offset by that count, unless the
  disk is full.
-/

namespace Xv6.Kernel

open Xv6.Lib

/-- The fields of an `FD_INODE` `struct file` that `fileread` and `filewrite`
use: `readable`, `writable`, the inode `ip` (by number) and `off`. -/
structure InodeFile where
  readable : Bool
  writable : Bool
  ip : Nat
  off : UInt32

/-- `((MAXOPBLOCKS-1-1-2) / 2) * BSIZE`: what `filewrite` writes in one
transaction at most, leaving room for the inode, an indirect block, the
bitmap blocks and two blocks of slop for unaligned writes. -/
def filewriteMax : Int := (((maxOpBlocks : Int) - 1 - 1 - 2) / 2) * (bsize : Int)

theorem filewriteMax_eq : filewriteMax = 3072 := by decide

section File

variable (sb : Superblock)

/-- `fileread(f, addr, n)` on an `FD_INODE` file: `readi` at `f->off` of `n`
taken as a `uint`, then `f->off += r` if it read anything. -/
def fileread (s : FsState) (f : InodeFile) (dst : Nat → Bool) (n : Int) :
    Except String (Int × List UInt8 × InodeFile × FsState) :=
  if f.readable = false then .ok (-1, [], f, s)
  else do
    let (r, out, s) ← readi sb s f.ip dst f.off (UInt32.ofInt n)
    let f := if r > 0 then { f with off := f.off + UInt32.ofInt r } else f
    pure (r, out, f, s)

/-- The loop of `filewrite`, from `i` bytes written and the offset `off`: each
pass writes at most `filewriteMax` bytes from `addr + i` in a transaction of
its own, and a short write ends the loop. -/
def filewriteLoop (inum : Nat) (src : Nat → Option UInt8) (n : Int) :
    FsState → UInt32 → Int → Nat → Except String (Int × UInt32 × FsState)
  | s, off, i, 0 => .ok (i, off, s)
  | s, off, i, fuel + 1 =>
    if i < n then
      let n1 := if n - i > filewriteMax then filewriteMax else n - i
      -- `begin_op()`, then `writei` with the inode locked
      match writei sb { s with logged := [] } inum (fun p => src (i.toNat + p)) off
          (UInt32.ofInt n1) with
      | .error e => .error e
      | .ok (r, s) =>
        let off := if r > 0 then off + UInt32.ofInt r else off
        -- `end_op()`; a short write is an error of `writei`
        if r ≠ n1 then .ok (i, off, s)
        else filewriteLoop inum src n s off (i + r) fuel
    else .ok (i, off, s)

/-- `filewrite(f, addr, n)` on an `FD_INODE` file: `n` if every byte was
written, else `-1`. -/
def filewrite (s : FsState) (f : InodeFile) (src : Nat → Option UInt8) (n : Int) :
    Except String (Int × InodeFile × FsState) :=
  if f.writable = false then .ok (-1, f, s)
  else do
    let (i, off, s) ← filewriteLoop sb f.ip src n s f.off 0 n.toNat
    pure (if i = n then n else -1, { f with off }, s)

end File

/-! ## `filewrite` as one write -/

/-- A count that fits a `uint` is kept by the conversion from `int`. -/
theorem toNat_ofInt_of_lt {x : Int} (h0 : 0 ≤ x) (h : x < 4294967296) :
    (UInt32.ofInt x).toNat = x.toNat := by
  unfold UInt32.ofInt
  simp
  omega

theorem maxfile_mul_bsize : maxfile * bsize = 274432 := by decide

theorem length_content (s : FsState) (i : Nat) : (s.content i).length = (s.inodes i).size.toNat := by
  simp [FsState.content]

/-- The bytes of a write of `m` bytes from `k` on, unread ones as `0`. -/
theorem writeBytes_shift (src : Nat → Option UInt8) (k m : Nat) :
    (List.range m).map (fun p => (src (k + p)).getD 0) =
      (List.range' k m).map (fun p => (src p).getD 0) := by
  rw [List.range'_eq_map_range, List.map_map]
  rfl

/-- One pass of `filewrite`'s loop, once its `writei` has returned. -/
theorem filewriteLoop_succ (sb : Superblock) {inum : Nat} {src : Nat → Option UInt8} {n : Int}
    {s : FsState} {off : UInt32} {i : Int} {fuel : Nat} (hlt : i < n) {v : Int} {s₁ : FsState}
    (hw : writei sb { s with logged := [] } inum (fun p => src (i.toNat + p)) off
      (UInt32.ofInt (if n - i > filewriteMax then filewriteMax else n - i)) = .ok (v, s₁)) :
    filewriteLoop sb inum src n s off i (fuel + 1) =
      if v ≠ (if n - i > filewriteMax then filewriteMax else n - i) then
        .ok (i, if v > 0 then off + UInt32.ofInt v else off, s₁)
      else filewriteLoop sb inum src n s₁ (if v > 0 then off + UInt32.ofInt v else off) (i + v)
        fuel := by
  rw [filewriteLoop, if_pos hlt]
  dsimp only
  rw [hw]

/-- `begin_op` starts a new operation: the allocator's invariant does not read
the blocks logged. -/
theorem BlockInv.clearLogged {sb : Superblock} {s : FsState} (hinv : BlockInv sb s) :
    BlockInv sb { s with logged := [] } :=
  ⟨hinv.reserved, hinv.owned⟩

section Write

variable {sb : Superblock} {i : Fin sb.ninodes}

/-- The loop of `filewrite` from `k` bytes written: the file holds its first
bytes `c₀` with `[off₀, off₀ + k)` written, at the offset `off₀ + k`, and it
ends with all `n` bytes written there, or short with the disk full. -/
theorem filewriteLoop_content (hwf : sb.Wf) {src : Nat → Option UInt8} {n : Int} (hn : 0 ≤ n)
    (hsrc : ∀ p < n.toNat, (src p).isSome) {c₀ : List UInt8} {off₀ : Nat}
    (hc₀ : c₀.length ≤ maxfile * bsize) (hoff₀ : off₀ ≤ c₀.length)
    (hmax : off₀ + n.toNat ≤ maxfile * bsize) (fuel : Nat) :
    ∀ (s : FsState) (off : UInt32) (k : Nat), BlockInv sb s → (s.inodes i).type ≠ 0 →
      k ≤ n.toNat → n.toNat - k ≤ fuel → off.toNat = off₀ + k →
      s.content i = splice c₀ off₀ ((List.range' 0 k).map fun p => (src p).getD 0) →
      ∃ r, filewriteLoop sb i src n s off k fuel = .ok r ∧ BlockInv sb r.2.2 ∧
        ((r.1 = n ∧ r.2.1.toNat = off₀ + n.toNat ∧
          r.2.2.content i = splice c₀ off₀ ((List.range' 0 n.toNat).map fun p => (src p).getD 0)) ∨
         (r.1 < n ∧ r.2.2.Full sb)) := by
  have hbig := maxfile_mul_bsize
  induction fuel with
  | zero =>
    intro s off k hinv _ hk hfuel hoff hc
    have hkn : k = n.toNat := by omega
    subst hkn
    exact ⟨((n.toNat : Int), off, s), rfl, hinv, .inl ⟨Int.toNat_of_nonneg hn, hoff, hc⟩⟩
  | succ fuel ih =>
    intro s off k hinv hi hk hfuel hoff hc
    by_cases hlt : (k : Int) < n
    swap
    · -- all `n` bytes written
      have hkn : k = n.toNat := by omega
      subst hkn
      refine ⟨((n.toNat : Int), off, s), ?_, hinv, .inl ⟨Int.toNat_of_nonneg hn, hoff, hc⟩⟩
      rw [filewriteLoop, if_neg hlt]
    -- the next chunk: `m` bytes, at most `filewriteMax`
    set n1 : Int := if n - k > filewriteMax then filewriteMax else n - k with hn1
    have hm : n1.toNat = min (n.toNat - k) 3072 := by
      rw [hn1, filewriteMax_eq]
      split_ifs <;> omega
    have hn1v : n1 = (n1.toNat : Int) := by
      rw [hn1, filewriteMax_eq]
      split_ifs <;> omega
    have hcount : (UInt32.ofInt n1).toNat = n1.toNat :=
      toNat_ofInt_of_lt (by rw [hn1v]; omega) (by rw [hn1v]; omega)
    have hsize : (s.inodes i).size.toNat = max c₀.length (off₀ + k) := by
      rw [← length_content, hc, length_splice _ hoff₀, List.length_map, List.length_range']
    obtain ⟨v, s₁, hw, hinv₁, hres⟩ := @writei_content sb i hwf { s with logged := [] }
      hinv.clearLogged hi (by simp only; omega) (fun p => src ((k : Int).toNat + p)) off
      (UInt32.ofInt n1) (by simp only; omega) (by rw [hcount]; omega)
      (fun p hp => hsrc _ (by rw [hcount] at hp; omega))
    have hi₁ : (s₁.inodes i).type ≠ 0 := by
      rw [(writei_spec hwf hinv.clearLogged hi hw).2 i]
      exact hi
    rcases hres with ⟨hv, -, hcontent⟩ | ⟨hv, hfull⟩
    · -- the whole chunk was written: the offset moves on by `m`
      rw [hcount] at hv hcontent
      have hr : v = n1 := by rw [hv, ← hn1v]
      have hoff₁ : (off + UInt32.ofInt v).toNat = off₀ + (k + n1.toNat) := by
        rw [toNat_add_of_lt (by rw [hr, hcount]; omega), hr, hcount, hoff]
        omega
      have hc₁ : s₁.content i = splice c₀ off₀
          ((List.range' 0 (k + n1.toNat)).map fun p => (src p).getD 0) := by
        rw [hcontent]
        simp only [Int.toNat_natCast]
        rw [writeBytes_shift, show (({ s with logged := [] } : FsState).content i) = s.content i
          from rfl, hc, ← List.range'_append, List.map_append, ← splice_splice _ hoff₀]
        rw [hoff]
        unfold splice
        simp
      obtain ⟨r, hrun, hpost⟩ := ih s₁ (off + UInt32.ofInt v) (k + n1.toNat) hinv₁ hi₁
        (by omega) (by omega) hoff₁ hc₁
      refine ⟨r, ?_, hpost⟩
      rw [filewriteLoop_succ sb hlt hw, ← hn1, if_neg (not_not.mpr hr),
        if_pos (show v > 0 by rw [hr, hn1v]; omega),
        show (k : Int) + v = ((k + n1.toNat : Nat) : Int) by rw [hr, hn1v]; push_cast; rfl]
      exact hrun
    · -- a short write: the loop stops with the disk full
      rw [hcount] at hv
      refine ⟨((k : Int), if v > 0 then off + UInt32.ofInt v else off, s₁), ?_, hinv₁,
        .inr ⟨hlt, hfull⟩⟩
      rw [filewriteLoop_succ sb hlt hw, ← hn1, if_pos (show v ≠ n1 by omega)]

/-- From a state of the allocator's invariant, writing `n ≥ 0` bytes through a
writable file on inode `i` at its offset `off ≤ size`, with
`off + n ≤ MAXFILE * BSIZE`, does what one `writei` of all `n` bytes does,
though `filewrite` splits them into transactions of `filewriteMax` bytes: it
returns `n`, moves the offset to `off + n`, sets the size to
`max(size, off + n)` and replaces bytes `[off, off + n)` by the source's; or
it returns `-1` with the disk full. -/
theorem filewrite_content (hwf : sb.Wf) {s : FsState} (hinv : BlockInv sb s)
    (hi : (s.inodes i).type ≠ 0) (hsz : (s.inodes i).size.toNat ≤ maxfile * bsize)
    {f : InodeFile} (hw : f.writable = true) (hip : f.ip = i)
    (hoff : f.off.toNat ≤ (s.inodes i).size.toNat) {n : Int} (hn : 0 ≤ n)
    (hmax : f.off.toNat + n.toNat ≤ maxfile * bsize) {src : Nat → Option UInt8}
    (hsrc : ∀ p < n.toNat, (src p).isSome) :
    ∃ r f' s', filewrite sb s f src n = .ok (r, f', s') ∧ BlockInv sb s' ∧
      ((r = n ∧ f'.off.toNat = f.off.toNat + n.toNat ∧
        (s'.inodes i).size.toNat = max (s.inodes i).size.toNat (f.off.toNat + n.toNat) ∧
        s'.content i = (s.content i).take f.off.toNat ++
          (List.range n.toNat).map (fun p => (src p).getD 0) ++
          (s.content i).drop (f.off.toNat + n.toNat)) ∨
       (r = -1 ∧ s'.Full sb)) := by
  have hlen := length_content s i
  -- the loop from nothing written, with fuel for a byte a pass
  obtain ⟨⟨k, off', s'⟩, hrun, hinv', hres⟩ := @filewriteLoop_content sb i hwf src n hn hsrc
    (s.content i) f.off.toNat (by omega) (by omega) hmax n.toNat s f.off 0 hinv hi
    (Nat.zero_le _) (by omega) (by simp) (by simp [splice_nil])
  have hfw : filewrite sb s f src n = .ok (if k = n then n else -1, { f with off := off' }, s') := by
    unfold filewrite
    rw [if_neg (by rw [hw]; decide), hip]
    rw [show ((0 : Nat) : Int) = 0 from rfl] at hrun
    simp only [hrun, bind, Except.bind, pure, Except.pure]
  refine ⟨_, _, s', hfw, hinv', ?_⟩
  rcases hres with ⟨hk, hoff', hc⟩ | ⟨hk, hfull⟩
  · -- every byte written: the bytes are those of one write
    refine .inl ⟨if_pos hk, hoff', ?_, ?_⟩
    · rw [← length_content, hc, length_splice _ (by omega), List.length_map, List.length_range',
        hlen]
    · rw [hc, splice, List.length_map, List.length_range', ← List.range_eq_range']
  · exact .inr ⟨if_neg (by omega), hfull⟩

/-- Reading `n` bytes, `0 ≤ n < 2^31`, through a readable file on inode `i` at
its offset `off ≤ size`: the `min(n, size - off)` bytes of the file from `off`,
with the offset moved past them, unless the disk is full; no file's bytes
change. -/
theorem fileread_content (hwf : sb.Wf) {s : FsState} (hinv : BlockInv sb s)
    (hi : (s.inodes i).type ≠ 0) (hsz : (s.inodes i).size.toNat ≤ maxfile * bsize)
    {f : InodeFile} (hr : f.readable = true) (hip : f.ip = i)
    (hoff : f.off.toNat ≤ (s.inodes i).size.toNat) {n : Int} (hn : 0 ≤ n) (hn' : n < 2147483648)
    {dst : Nat → Bool} (hdst : ∀ p < n.toNat, dst p = true) :
    ∃ r out f' s', fileread sb s f dst n = .ok (r, out, f', s') ∧ s.Keeps sb s' ∧
      ((r = min n.toNat ((s.inodes i).size.toNat - f.off.toNat) ∧
        out = ((s.content i).drop f.off.toNat).take r.toNat ∧
        f'.off.toNat = f.off.toNat + r.toNat) ∨ s'.Full sb) := by
  have hcount : (UInt32.ofInt n).toNat = n.toNat := toNat_ofInt_of_lt hn (by omega)
  obtain ⟨v, out, s', hread, hkeep, -, hgood⟩ := @readi_content sb i hwf s hinv hi hsz dst f.off
    (UInt32.ofInt n) (fun p hp => hdst p (by rw [hcount] at hp; exact hp))
  -- neither past the end nor wrapping
  have hok : ¬((s.inodes i).size < f.off ∨ f.off + UInt32.ofInt n < f.off) := by
    rintro (h | h)
    · exact absurd (UInt32.lt_iff_toNat_lt.mp h) (by omega)
    · have := UInt32.lt_iff_toNat_lt.mp h
      rw [toNat_add_of_lt (by rw [hcount]; have := maxfile_mul_bsize; omega), hcount] at this
      omega
  have hfr : fileread sb s f dst n = .ok (v, out, if v > 0 then { f with off := f.off + UInt32.ofInt v }
      else f, s') := by
    unfold fileread
    rw [if_neg (by rw [hr]; decide), hip]
    simp only [hread, bind, Except.bind, pure, Except.pure]
  refine ⟨v, out, _, s', hfr, hkeep, ?_⟩
  rcases hgood hok with ⟨hv, hout⟩ | hfull
  · rw [hcount] at hv hout
    refine .inl ⟨hv, by rw [hout, hv]; rfl, ?_⟩
    -- the offset moves by the count, if it is positive
    have hbig := maxfile_mul_bsize
    have hvcount : (UInt32.ofInt v).toNat = v.toNat := toNat_ofInt_of_lt (by omega) (by omega)
    split_ifs with hpos
    · show (f.off + UInt32.ofInt v).toNat = _
      rw [toNat_add_of_lt (by rw [hvcount]; omega), hvcount]
    · omega
  · exact .inr hfull

end Write

/-! ## The root directory of a fresh image -/

/-- The root directory of the image of no files, in a state of the allocator's
invariant: in use, one block long (`mkfs` rounds it up to `BSIZE`). -/
theorem mkfs_root_file : ∃ m : Mkfs, mkfsImage [] = some m ∧ BlockInv mkfsSb m.fs ∧
    (m.fs.inodes 1).type ≠ 0 ∧ (m.fs.inodes 1).size.toNat = 1024 := by
  have hrun : (mkfsImage []).map (fun m => (m.freeinode, m.freeblock,
      decide ((m.fs.inodes 1).type ≠ 0), (m.fs.inodes 1).size.toNat)) = some (2, 47, true, 1024) := by
    decide
  cases h : mkfsImage [] with
  | none =>
    rw [h] at hrun
    cases hrun
  | some m =>
    rw [h] at hrun
    simp only [Option.map_some, Option.some.injEq, Prod.mk.injEq, decide_eq_true_eq] at hrun
    obtain ⟨hfi, hfb, hi, hsz⟩ := hrun
    exact ⟨m, rfl, (mkfsImage_blockInv h (by rw [hfi]; decide) (by rw [hfb]; decide)).1, hi, hsz⟩

/-- `5000` bytes written at the start of the root directory: two transactions. -/
theorem filewrite_content_root : ∃ m : Mkfs, mkfsImage [] = some m ∧ ∃ r f' s',
    filewrite mkfsSb m.fs ⟨true, true, 1, 0⟩ (fun _ => some 0) 5000 = .ok (r, f', s') ∧
      BlockInv mkfsSb s' ∧
      ((r = 5000 ∧ f'.off.toNat = 5000 ∧ (s'.inodes 1).size.toNat = 5000 ∧
        s'.content 1 = (List.range 5000).map (fun _ => 0)) ∨
       (r = -1 ∧ s'.Full mkfsSb)) := by
  obtain ⟨m, hm, hinv, hi, hsz⟩ := mkfs_root_file
  have hw := @filewrite_content mkfsSb ⟨1, by decide⟩ mkfsSb_wf m.fs hinv hi (by rw [hsz]; decide)
    ⟨true, true, 1, 0⟩ rfl rfl (by rw [hsz]; decide) 5000 (by decide) (by decide)
    (fun _ => some 0) (fun _ _ => rfl)
  obtain ⟨r, f', s', hrun, hinv', hres⟩ := hw
  refine ⟨m, hm, r, f', s', hrun, hinv', ?_⟩
  rcases hres with ⟨hr, hoff, hsize, hc⟩ | hfull
  · refine .inl ⟨hr, hoff, ?_, ?_⟩
    · rw [hsize]
      show max (m.fs.inodes 1).size.toNat 5000 = 5000
      rw [hsz]
      rfl
    · -- the old bytes are all overwritten
      have hdrop : (m.fs.content 1).drop 5000 = [] :=
        List.drop_eq_nil_of_le (by rw [length_content, hsz]; decide)
      rw [hc]
      show (m.fs.content 1).take 0 ++ (List.range 5000).map (fun _ => 0) ++
        (m.fs.content 1).drop 5000 = _
      rw [hdrop, List.take_zero, List.nil_append, List.append_nil]
  · exact .inr hfull

/-- `100` bytes read from the start of the root directory. -/
theorem fileread_content_root : ∃ m : Mkfs, mkfsImage [] = some m ∧ ∃ r out f' s',
    fileread mkfsSb m.fs ⟨true, true, 1, 0⟩ (fun _ => true) 100 = .ok (r, out, f', s') ∧
      m.fs.Keeps mkfsSb s' ∧
      ((r = 100 ∧ out = (m.fs.content 1).take 100 ∧ f'.off.toNat = 100) ∨ s'.Full mkfsSb) := by
  obtain ⟨m, hm, hinv, hi, hsz⟩ := mkfs_root_file
  have hr := @fileread_content mkfsSb ⟨1, by decide⟩ mkfsSb_wf m.fs hinv hi (by rw [hsz]; decide)
    ⟨true, true, 1, 0⟩ rfl rfl (by rw [hsz]; decide) 100 (by decide) (by decide)
    (fun _ => true) (fun _ _ => rfl)
  obtain ⟨r, out, f', s', hrun, hkeep, hres⟩ := hr
  refine ⟨m, hm, r, out, f', s', hrun, hkeep, ?_⟩
  rcases hres with ⟨hv, hout, hoff⟩ | hfull
  · rw [hsz] at hv
    simp only [UInt32.toNat_zero] at hv hout hoff
    subst hv
    exact .inl ⟨rfl, hout, hoff⟩
  · exact .inr hfull

end Xv6.Kernel
