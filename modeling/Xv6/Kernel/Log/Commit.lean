import Xv6.Lib.Disk
import Xv6.Kernel.Log.Header

/-!
# Commit and recovery of the write-ahead log

The disk side of `kernel/log.c`. `commit` and `recover_from_log` are written
as the lists of block writes they issue, in order (`bwrite` goes through
`virtio_disk_rw`, which waits for the device, so writes are atomic per block
and reach the disk in program order). Reads of the header block and of the log
slots return what is on disk: those buffers are only ever written with
`bwrite`, so the cache holds what the disk holds. Reads of a logged block in
`write_log` return its cached, modified data, the `cache` argument.

The layout (`LogLoc`): the header at `log.start`, slot `tail` of the log at
`log.start + tail + 1`, the region `[log.start, log.start + log.size)`.

Main results:

* `commit_crash_atomic` — a crash after any prefix of `commit`'s writes,
  followed by recovery, leaves every block outside the log region as before
  the commit or every one as after it; a crash inside that recovery followed
  by another recovery gives the same disk.
* `recovered_run_take` — recovery interrupted at any point and run again
  gives the same disk as one uninterrupted recovery, from any disk whose
  header describes a transaction the log can hold.
-/

namespace Xv6.Kernel

open Xv6.Lib

/-- Where the log lives: `log.start` (the header block) and `log.size`. -/
structure LogLoc where
  start : Nat
  size : Nat

/-- The log `mkfs` lays out: `sb.logstart = 2`, `sb.nlog = LOGSIZE`. -/
def mkfsLog : LogLoc := ⟨2, logSize⟩

namespace LogLoc

/-- The log region: the header block and the log slots after it. -/
def region (L : LogLoc) : Set Nat := {x | L.start ≤ x ∧ x < L.start + L.size}

theorem start_mem_region (L : LogLoc) (h : 0 < L.size) : L.start ∈ L.region :=
  ⟨le_refl _, by omega⟩

end LogLoc

/-- A transaction the log can hold: at most `LOGSIZE` blocks (the first
check of `log_write`), at most `log.size - 1` of them (its second check), and
none inside the log region (no caller logs a log block). -/
structure Fits (L : LogLoc) (lh : LogHeader) : Prop where
  le_logSize : lh.n ≤ logSize
  lt_size : lh.n < L.size
  outside : ∀ b ∈ lh.block, b.toNat ∉ L.region

theorem Fits.empty (L : LogLoc) (h : 0 < L.size) : Fits L LogHeader.empty :=
  ⟨by simp, by simpa using h, by simp [LogHeader.empty]⟩

/-- The header of a transaction the log can hold fits the header block. -/
theorem Fits.header_fits {L : LogLoc} {lh : LogHeader} (h : Fits L lh) :
    4 * (lh.n + 1) ≤ bsize := by
  have := h.le_logSize
  simp only [logSize_eq] at this
  simp only [bsize_eq]
  omega

/-! ## The writes -/

/-- `write_log`: copy each logged block's cached data into its log slot,
from slot `tail` on. -/
def writeLog (L : LogLoc) (cache : Nat → Block) : Nat → List UInt32 → List (Write Block)
  | _, [] => []
  | tail, b :: bs =>
    Write.const (L.start + tail + 1) (cache b.toNat) :: writeLog L cache (tail + 1) bs

/-- `write_head`: read the header block, store `lh` in it, write it back. -/
def writeHead (L : LogLoc) (lh : LogHeader) : Write Block :=
  ⟨L.start, fun d => encodeHead lh (d L.start)⟩

/-- `install_trans`: copy each log slot, from slot `tail` on, to its home
block. (`bunpin`, done when not recovering, only touches the cache.) -/
def installTrans (L : LogLoc) : Nat → List UInt32 → List (Write Block)
  | _, [] => []
  | tail, b :: bs => ⟨b.toNat, fun d => d (L.start + tail + 1)⟩ :: installTrans L (tail + 1) bs

/-- `commit`: write the log, commit by writing the header, install, then
erase the transaction by writing a header with `n = 0`. -/
def commit (L : LogLoc) (lh : LogHeader) (cache : Nat → Block) : List (Write Block) :=
  if 0 < lh.n then
    writeLog L cache 0 lh.block ++
      writeHead L lh :: (installTrans L 0 lh.block ++ [writeHead L LogHeader.empty])
  else []

/-- `read_head`: the header `log.lh` holds after reading the header block. -/
def readHead (L : LogLoc) (d : Disk Block) : LogHeader := decodeHead (d L.start)

/-- `recover_from_log`: `read_head`, `install_trans(1)`, then `log.lh.n = 0`
and `write_head`. The writes depend on the header found on disk. -/
def recoverFromLog (L : LogLoc) (d : Disk Block) : List (Write Block) :=
  installTrans L 0 (readHead L d).block ++ [writeHead L LogHeader.empty]

/-- The disk after a complete `recover_from_log`. -/
def recovered (L : LogLoc) (d : Disk Block) : Disk Block := Write.run (recoverFromLog L d) d

/-- The disk at the commit point: the log written, then the header. -/
def committed (L : LogLoc) (lh : LogHeader) (cache : Nat → Block) (d : Disk Block) :
    Disk Block :=
  (writeHead L lh).apply (Write.run (writeLog L cache 0 lh.block) d)

/-- What the transaction means: each logged block holds its cached data,
every other block is unchanged. -/
def installed (lh : LogHeader) (cache : Nat → Block) (d : Disk Block) : Disk Block :=
  fun x => if ∃ b ∈ lh.block, b.toNat = x then cache x else d x

/-! ## `write_log` -/

variable {L : LogLoc} {cache : Nat → Block}

theorem blk_of_mem_writeLog {tail : Nat} {bs : List UInt32} {w : Write Block}
    (hw : w ∈ writeLog L cache tail bs) :
    ∃ t, tail ≤ t ∧ t < tail + bs.length ∧ w.blk = L.start + t + 1 := by
  induction bs generalizing tail with
  | nil => cases hw
  | cons b bs ih =>
    rcases List.mem_cons.mp hw with rfl | hw
    · exact ⟨tail, le_refl _, by simp, rfl⟩
    · obtain ⟨t, h1, h2, h3⟩ := ih hw
      exact ⟨t, by omega, by simp only [List.length_cons]; omega, h3⟩

/-- After `write_log`, slot `tail + j` holds the cached data of `block[j]`. -/
theorem run_writeLog_slot (tail : Nat) (bs : List UInt32) (d : Disk Block) {j : Nat}
    (hj : j < bs.length) :
    Write.run (writeLog L cache tail bs) d (L.start + (tail + j) + 1) = cache bs[j].toNat := by
  induction bs generalizing tail j d with
  | nil => simp at hj
  | cons b bs ih =>
    cases j with
    | zero =>
      -- the later writes go to later slots
      rw [writeLog, Write.run_cons, Write.run_apply_of_forall_ne]
      · simp [Write.apply, Write.const]
      · intro w hw
        obtain ⟨t, h1, _, h3⟩ := blk_of_mem_writeLog hw
        omega
    | succ j =>
      rw [writeLog, Write.run_cons, show tail + (j + 1) = tail + 1 + j by omega]
      exact ih (tail + 1) _ (by simpa using hj)

/-! ## `install_trans` -/

theorem mem_installTrans {tail : Nat} {bs : List UInt32} {w : Write Block}
    (hw : w ∈ installTrans L tail bs) :
    ∃ b ∈ bs, w.blk = b.toNat ∧
      ∃ t, tail ≤ t ∧ t < tail + bs.length ∧ w.data = fun d => d (L.start + t + 1) := by
  induction bs generalizing tail with
  | nil => cases hw
  | cons b bs ih =>
    rcases List.mem_cons.mp hw with rfl | hw
    · exact ⟨b, List.mem_cons_self, rfl, tail, le_refl _, by simp, rfl⟩
    · obtain ⟨b', hb', h1, t, h2, h3, h4⟩ := ih hw
      exact ⟨b', List.mem_cons_of_mem _ hb', h1, t, by omega,
        by simp only [List.length_cons]; omega, h4⟩

/-- `install_trans` reads only log slots. -/
theorem readsIn_of_mem_installTrans {tail : Nat} {bs : List UInt32} {w : Write Block}
    (hw : w ∈ installTrans L tail bs) (hslots : tail + bs.length < L.size) :
    w.ReadsIn L.region := by
  obtain ⟨_, _, _, t, h1, h2, h3⟩ := mem_installTrans hw
  intro d d' h
  rw [h3]
  exact h ⟨by omega, by omega⟩

/-- `install_trans` writes only the logged blocks. -/
theorem blk_not_mem_of_mem_installTrans {tail : Nat} {bs : List UInt32} {w : Write Block}
    (hw : w ∈ installTrans L tail bs) (hout : ∀ b ∈ bs, b.toNat ∉ L.region) :
    w.blk ∉ L.region := by
  obtain ⟨b, hb, h1, _⟩ := mem_installTrans hw
  rw [h1]
  exact hout b hb

theorem installTrans_take (tail : Nat) (bs : List UInt32) (j : Nat) :
    (installTrans L tail bs).take j = installTrans L tail (bs.take j) := by
  induction bs generalizing tail j with
  | nil => simp [installTrans]
  | cons b bs ih =>
    cases j with
    | zero => rfl
    | succ j => simp [installTrans, ih]

/-- A run of `install_trans` leaves the log region alone. -/
theorem run_installTrans_eqOn_region {tail : Nat} {bs : List UInt32}
    (hout : ∀ b ∈ bs, b.toNat ∉ L.region) (d : Disk Block) :
    Set.EqOn (Write.run (installTrans L tail bs) d) d L.region := by
  intro x hx
  apply Write.run_apply_of_forall_ne
  intro w hw he
  exact blk_not_mem_of_mem_installTrans hw hout (he ▸ hx)

/-- The spec of `install_trans`: when each slot holds its block's cached
data, the home blocks afterwards are the transaction's. -/
theorem run_installTrans_of_not_mem (tail : Nat) (bs : List UInt32)
    (hout : ∀ b ∈ bs, b.toNat ∉ L.region) (hslots : tail + bs.length < L.size)
    (d : Disk Block)
    (hd : ∀ j (hj : j < bs.length), d (L.start + (tail + j) + 1) = cache bs[j].toNat)
    {x : Nat} (hx : x ∉ L.region) :
    Write.run (installTrans L tail bs) d x = installed ⟨bs⟩ cache d x := by
  induction bs generalizing tail d with
  | nil => simp [installTrans, installed]
  | cons b bs ih =>
    simp only [List.length_cons] at hslots
    have hb : b.toNat ∉ L.region := hout b List.mem_cons_self
    -- installing `b` first does not disturb the later slots
    have hd' : ∀ j (hj : j < bs.length), ((⟨b.toNat, fun d => d (L.start + tail + 1)⟩ :
        Write Block).apply d) (L.start + (tail + 1 + j) + 1) = cache bs[j].toNat := by
      intro j hj
      have hne : L.start + (tail + 1 + j) + 1 ≠ b.toNat := fun he =>
        hb (he ▸ ⟨by omega, by omega⟩)
      rw [Write.apply_of_ne _ _ hne, show tail + 1 + j = tail + (j + 1) by omega]
      exact hd (j + 1) (by simpa using hj)
    rw [installTrans, Write.run_cons,
      ih (tail + 1) (fun b' hb' => hout b' (List.mem_cons_of_mem _ hb')) (by omega) _ hd']
    have h0 := hd 0 (by simp)
    simp only [Nat.add_zero, List.getElem_cons_zero] at h0
    simp only [installed, List.mem_cons, exists_eq_or_imp]
    by_cases hin : ∃ a ∈ bs, a.toNat = x
    · simp [hin]
    · by_cases hx' : x = b.toNat
      · subst hx'
        simp [Write.apply, h0]
      · simp [hin, Write.apply, hx', Ne.symm hx']

/-! ## `write_head` and `read_head` -/

theorem writeHead_apply_of_ne (lh : LogHeader) (d : Disk Block) {x : Nat} (h : x ≠ L.start) :
    (writeHead L lh).apply d x = d x :=
  Write.apply_of_ne _ _ h

theorem readHead_apply_writeHead (lh : LogHeader) (hfit : 4 * (lh.n + 1) ≤ bsize)
    (d : Disk Block) : readHead L ((writeHead L lh).apply d) = lh := by
  simp only [readHead, writeHead, Write.apply, Function.update_self]
  exact decodeHead_encodeHead lh _ hfit

theorem readHead_apply_writeHead_empty (d : Disk Block) :
    readHead L ((writeHead L LogHeader.empty).apply d) = LogHeader.empty :=
  readHead_apply_writeHead _ (by simp [bsize_eq]) d

/-- Clearing the header twice clears it once. -/
theorem writeHead_empty_apply_apply (d : Disk Block) :
    (writeHead L LogHeader.empty).apply ((writeHead L LogHeader.empty).apply d) =
      (writeHead L LogHeader.empty).apply d := by
  funext x
  by_cases hx : x = L.start
  · subst hx
    simp only [writeHead, Write.apply, Function.update_self]
    exact encodeHead_empty_encodeHead_empty _
  · simp [Write.apply, writeHead, hx]

/-! ## Recovery -/

theorem length_writeLog (tail : Nat) (bs : List UInt32) :
    (writeLog L cache tail bs).length = bs.length := by
  induction bs generalizing tail with
  | nil => rfl
  | cons b bs ih => simp [writeLog, ih]

theorem length_installTrans (tail : Nat) (bs : List UInt32) :
    (installTrans L tail bs).length = bs.length := by
  induction bs generalizing tail with
  | nil => rfl
  | cons b bs ih => simp [installTrans, ih]

/-- Recovery from a disk whose header is clear only writes the header again. -/
theorem recovered_of_readHead_empty {d : Disk Block} (h : readHead L d = LogHeader.empty) :
    recovered L d = (writeHead L LogHeader.empty).apply d := by
  simp [recovered, recoverFromLog, h, LogHeader.empty, installTrans]

/-- Recovery always leaves the header clear. -/
theorem readHead_recovered (d : Disk Block) : readHead L (recovered L d) = LogHeader.empty := by
  rw [recovered, recoverFromLog, Write.run_append, Write.run_singleton,
    readHead_apply_writeHead_empty]

/-- Up to the header write, a recovery prefix is a prefix of the installs. -/
theorem recoverFromLog_take_of_le (d : Disk Block) {j : Nat} (hj : j ≤ (readHead L d).n) :
    (recoverFromLog L d).take j = installTrans L 0 ((readHead L d).block.take j) := by
  rw [recoverFromLog, List.take_append_of_le_length (by rw [length_installTrans]; exact hj),
    installTrans_take]

/-- Past the header write, a recovery prefix is the whole recovery. -/
theorem recoverFromLog_take_of_lt (d : Disk Block) {j : Nat} (hj : (readHead L d).n < j) :
    (recoverFromLog L d).take j = recoverFromLog L d := by
  apply List.take_of_length_le
  simp only [recoverFromLog, List.length_append, length_installTrans, List.length_singleton]
  exact hj

/-- An interrupted recovery leaves the header as it found it, or cleared. -/
theorem readHead_crash_recoverFromLog {d : Disk Block} (hf : Fits L (readHead L d))
    (j : Nat) : readHead L (Write.crash (recoverFromLog L d) j d) = readHead L d ∨
      readHead L (Write.crash (recoverFromLog L d) j d) = LogHeader.empty := by
  have hstart : L.start ∈ L.region := L.start_mem_region (by have := hf.lt_size; omega)
  by_cases hj : j ≤ (readHead L d).n
  · -- only installs went through, and they stay out of the log region
    left
    rw [Write.crash, recoverFromLog_take_of_le d hj]
    exact congrArg decodeHead
      (run_installTrans_eqOn_region (fun b hb => hf.outside b (List.mem_of_mem_take hb)) d hstart)
  · right
    rw [Write.crash, recoverFromLog_take_of_lt d (by omega), recoverFromLog, Write.run_append,
      Write.run_singleton, readHead_apply_writeHead_empty]

/-- A recovery interrupted at any point and run again gives the disk one
uninterrupted recovery gives. -/
theorem recovered_crash_recoverFromLog {d : Disk Block} (hf : Fits L (readHead L d)) (j : Nat) :
    recovered L (Write.crash (recoverFromLog L d) j d) = recovered L d := by
  have hstart : L.start ∈ L.region := L.start_mem_region (by have := hf.lt_size; omega)
  have hslots : 0 + (readHead L d).block.length < L.size := by
    simpa [LogHeader.n] using hf.lt_size
  by_cases hj : j ≤ (readHead L d).n
  · -- interrupted among the installs: the header still holds the transaction,
    -- and installing again gives the same home blocks
    rw [Write.crash, recoverFromLog_take_of_le d hj]
    set d' := Write.run (installTrans L 0 ((readHead L d).block.take j)) d with hd'
    have hagree : Set.EqOn d' d L.region :=
      run_installTrans_eqOn_region (fun b hb => hf.outside b (List.mem_of_mem_take hb)) d
    have hhead : readHead L d' = readHead L d := congrArg decodeHead (hagree hstart)
    have hrun : Write.run (installTrans L 0 (readHead L d).block) d' =
        Write.run (installTrans L 0 (readHead L d).block) d := by
      funext x
      by_cases hx : ∃ w ∈ installTrans L 0 (readHead L d).block, w.blk = x
      · exact Write.run_congr_of_eqOn (fun w hw => readsIn_of_mem_installTrans hw hslots)
          (fun w hw => blk_not_mem_of_mem_installTrans hw hf.outside) hagree hx
      · simp only [not_exists, not_and] at hx
        rw [Write.run_apply_of_forall_ne hx, Write.run_apply_of_forall_ne hx, hd',
          ← installTrans_take, Write.run_take_apply_of_forall_ne hx]
    simp only [recovered, recoverFromLog, hhead, Write.run_append, hrun]
  · -- interrupted after the header was cleared: recovery had finished
    rw [Write.crash, recoverFromLog_take_of_lt d (by omega)]
    rw [recovered_of_readHead_empty (by
      rw [recoverFromLog, Write.run_append, Write.run_singleton,
        readHead_apply_writeHead_empty])]
    rw [recovered, recoverFromLog, Write.run_append, Write.run_singleton,
      writeHead_empty_apply_apply]

/-! ## Crashes during `commit` -/

theorem readHead_committed {lh : LogHeader} (hf : Fits L lh) (d : Disk Block) :
    readHead L (committed L lh cache d) = lh :=
  readHead_apply_writeHead lh hf.header_fits _

/-- After the commit point, `commit` issues exactly the writes of a recovery
from the committed disk. -/
theorem commit_eq {lh : LogHeader} (hn : 0 < lh.n) (hf : Fits L lh) (d : Disk Block) :
    commit L lh cache = writeLog L cache 0 lh.block ++
      writeHead L lh :: recoverFromLog L (committed L lh cache d) := by
  rw [commit, if_pos hn, recoverFromLog, readHead_committed hf]

/-- A crash during `commit` stops while the log is being written, or at some
point of a recovery from the commit point. -/
theorem crash_commit {lh : LogHeader} (hn : 0 < lh.n) (hf : Fits L lh) (d : Disk Block)
    (k : Nat) :
    (k ≤ lh.n ∧ Write.crash (commit L lh cache) k d =
        Write.crash (writeLog L cache 0 lh.block) k d) ∨
      Write.crash (commit L lh cache) k d = Write.crash (recoverFromLog L
        (committed L lh cache d)) (k - lh.n - 1) (committed L lh cache d) := by
  rw [Write.crash, commit_eq hn hf d, List.take_append, length_writeLog]
  by_cases hk : k ≤ lh.n
  · left
    refine ⟨hk, ?_⟩
    rw [Nat.sub_eq_zero_of_le (show k ≤ lh.block.length from hk), List.take_zero,
      List.append_nil]
    rfl
  · right
    have hm : k - lh.block.length = (k - lh.n - 1) + 1 := by
      simp only [LogHeader.n] at hk ⊢
      omega
    rw [List.take_of_length_le (by rw [length_writeLog]; simp only [LogHeader.n] at hk; omega),
      hm, List.take_succ_cons, Write.run_append, Write.run_cons]
    rfl

/-- `write_log` writes only log slots, never the header. -/
theorem blk_of_mem_writeLog_region {lh : LogHeader} (hf : Fits L lh) {w : Write Block}
    (hw : w ∈ writeLog L cache 0 lh.block) : w.blk ∈ L.region ∧ w.blk ≠ L.start := by
  obtain ⟨t, _, ht, he⟩ := blk_of_mem_writeLog hw
  have := hf.lt_size
  simp only [LogHeader.n] at this
  rw [he]
  exact ⟨⟨by omega, by omega⟩, by omega⟩

/-- Before the commit point the header on disk is still clear, and recovery
leaves every block outside the log region as it was. -/
theorem recovered_crash_writeLog {lh : LogHeader} (hf : Fits L lh) {d : Disk Block}
    (hclean : readHead L d = LogHeader.empty) (k : Nat) :
    readHead L (Write.crash (writeLog L cache 0 lh.block) k d) = LogHeader.empty ∧
      Set.EqOn (recovered L (Write.crash (writeLog L cache 0 lh.block) k d)) d L.regionᶜ := by
  have hin : ∀ w ∈ (writeLog L cache 0 lh.block).take k, w.blk ∈ L.region ∧ w.blk ≠ L.start :=
    fun w hw => blk_of_mem_writeLog_region hf (List.mem_of_mem_take hw)
  have hhead : readHead L (Write.crash (writeLog L cache 0 lh.block) k d) = LogHeader.empty := by
    rw [← hclean]
    exact congrArg decodeHead (Write.run_apply_of_forall_ne (fun w hw => (hin w hw).2) d)
  refine ⟨hhead, ?_⟩
  rw [recovered_of_readHead_empty hhead]
  intro x hx
  have hstart := L.start_mem_region (by have := hf.lt_size; omega)
  have hxs : x ≠ L.start := fun he => hx (he ▸ hstart)
  rw [writeHead_apply_of_ne _ _ hxs, Write.crash,
    Write.run_apply_of_forall_ne (x := x) (fun w hw he => hx (he ▸ (hin w hw).1))]

/-- Recovery from the commit point installs the transaction. -/
theorem recovered_committed {lh : LogHeader} (hf : Fits L lh) (d : Disk Block) :
    Set.EqOn (recovered L (committed L lh cache d)) (installed lh cache d) L.regionᶜ := by
  have hstart := L.start_mem_region (by have := hf.lt_size; omega)
  intro x hx
  have hxs : x ≠ L.start := fun he => hx (he ▸ hstart)
  simp only [recovered, recoverFromLog, readHead_committed hf, Write.run_append,
    Write.run_singleton]
  rw [writeHead_apply_of_ne _ _ hxs, run_installTrans_of_not_mem 0 lh.block hf.outside
    (by simpa [LogHeader.n] using hf.lt_size) _ ?_ hx]
  · -- outside the region the committed disk still holds `d`
    simp only [installed]
    split_ifs
    · rfl
    · rw [committed, writeHead_apply_of_ne _ _ hxs, Write.run_apply_of_forall_ne (x := x)
        (fun w hw he => hx (he ▸ (blk_of_mem_writeLog_region hf hw).1))]
  · intro j hj
    rw [committed, writeHead_apply_of_ne _ _ (by omega)]
    exact run_writeLog_slot 0 lh.block d hj

/-- Whatever the crash point, the header left on disk describes a transaction
the log can hold: none, or the committed one. -/
theorem fits_readHead_crash_commit {lh : LogHeader} (hf : Fits L lh) {d : Disk Block}
    (hclean : readHead L d = LogHeader.empty) (k : Nat) :
    Fits L (readHead L (Write.crash (commit L lh cache) k d)) := by
  have hempty : Fits L LogHeader.empty := Fits.empty L (by have := hf.lt_size; omega)
  by_cases hn : 0 < lh.n
  · rcases crash_commit hn hf d k with ⟨-, hD⟩ | hD
    · rw [hD, (recovered_crash_writeLog hf hclean k).1]
      exact hempty
    · have hfc : Fits L (readHead L (committed L lh cache d)) := by
        rw [readHead_committed hf]
        exact hf
      rw [hD]
      rcases readHead_crash_recoverFromLog hfc (k - lh.n - 1) with h | h
      · rw [h]
        exact hfc
      · rw [h]
        exact hempty
  · have hD : Write.crash (commit L lh cache) k d = d := by simp [Write.crash, commit, hn]
    rw [hD, hclean]
    exact hempty

/-- Crash atomicity of `commit`. From a disk whose header is clear, cut
`commit` after any number of its block writes and run `recover_from_log`:
every block outside the log region is as before the commit, or every one is
as after it (each logged block holding its cached data, the others
unchanged). Cut that recovery anywhere and recover again: the same disk. -/
theorem commit_crash_atomic (L : LogLoc) (lh : LogHeader) (cache : Nat → Block)
    (d : Disk Block) (hclean : readHead L d = LogHeader.empty) (hf : Fits L lh) (k : Nat) :
    (Set.EqOn (recovered L (Write.crash (commit L lh cache) k d)) d L.regionᶜ ∨
      Set.EqOn (recovered L (Write.crash (commit L lh cache) k d)) (installed lh cache d)
        L.regionᶜ) ∧
    ∀ j, recovered L (Write.crash (recoverFromLog L (Write.crash (commit L lh cache) k d)) j
        (Write.crash (commit L lh cache) k d)) =
      recovered L (Write.crash (commit L lh cache) k d) := by
  refine ⟨?_, recovered_crash_recoverFromLog (fits_readHead_crash_commit hf hclean k)⟩
  by_cases hn : 0 < lh.n
  · rcases crash_commit hn hf d k with ⟨-, hD⟩ | hD
    · -- cut before the commit point: nothing was installed
      left
      rw [hD]
      exact (recovered_crash_writeLog hf hclean k).2
    · -- cut after it: recovery completes the installs
      right
      rw [hD, recovered_crash_recoverFromLog (by rw [readHead_committed hf]; exact hf)]
      exact recovered_committed hf d
  · -- an empty transaction writes nothing
    left
    have hD : Write.crash (commit L lh cache) k d = d := by simp [Write.crash, commit, hn]
    have hstart := L.start_mem_region (by have := hf.lt_size; omega)
    rw [hD, recovered_of_readHead_empty hclean]
    intro x hx
    exact writeHead_apply_of_ne _ _ (fun he => hx (he ▸ hstart))

/-- The log `mkfs` lays out, on a zeroed disk, a transaction of blocks 100
and 101, cut after three writes (two log slots and the header). -/
theorem commit_crash_atomic_mkfs :
    readHead mkfsLog (fun _ => Bytes.zero) = LogHeader.empty ∧ Fits mkfsLog ⟨[100, 101]⟩ ∧
    ((Set.EqOn (recovered mkfsLog (Write.crash (commit mkfsLog ⟨[100, 101]⟩ fun _ => Bytes.zero)
        3 fun _ => Bytes.zero)) (fun _ => Bytes.zero) mkfsLog.regionᶜ ∨
      Set.EqOn (recovered mkfsLog (Write.crash (commit mkfsLog ⟨[100, 101]⟩ fun _ => Bytes.zero)
        3 fun _ => Bytes.zero)) (installed ⟨[100, 101]⟩ (fun _ => Bytes.zero)
          fun _ => Bytes.zero) mkfsLog.regionᶜ) ∧
    ∀ j, recovered mkfsLog (Write.crash (recoverFromLog mkfsLog (Write.crash
        (commit mkfsLog ⟨[100, 101]⟩ fun _ => Bytes.zero) 3 fun _ => Bytes.zero)) j
        (Write.crash (commit mkfsLog ⟨[100, 101]⟩ fun _ => Bytes.zero) 3 fun _ => Bytes.zero)) =
      recovered mkfsLog (Write.crash (commit mkfsLog ⟨[100, 101]⟩ fun _ => Bytes.zero)
        3 fun _ => Bytes.zero)) := by
  have hclean : readHead mkfsLog (fun _ => Bytes.zero) = LogHeader.empty := by
    apply decodeHead_of_headerN_nonpos
    simp [headerN, intOfWord, Bytes.getU32]
  have hf : Fits mkfsLog ⟨[100, 101]⟩ := by
    refine ⟨by decide, by decide, ?_⟩
    intro b hb
    simp only [List.mem_cons, List.not_mem_nil, or_false] at hb
    rcases hb with rfl | rfl <;> simp [LogLoc.region, mkfsLog, logSize_eq]
  exact ⟨hclean, hf, commit_crash_atomic mkfsLog _ _ _ hclean hf 3⟩

end Xv6.Kernel
