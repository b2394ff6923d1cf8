import Xv6.Lib.Reach
import Xv6.Lib.Count
import Xv6.Kernel.Log.Header

/-!
# Group commit: `begin_op`, `log_write` and `end_op`

The in-memory side of `kernel/log.c`. Any number of processes run file-system
operations; each brackets its operation with `begin_op`/`end_op` and records
modified blocks with `log_write`. The fields of `struct log` they share are
`LogState`; each critical section (between `acquire(&log.lock)` and
`release`) is one step.

`sleep` inside `begin_op`'s loop is modelled as blocking until the loop's
condition lets it through (`beginOp` is `none` while it would sleep): the
loop re-checks both conditions after every wakeup, holding the lock, so a
wakeup only matters through that re-check. `end_op` is two critical sections
with `commit()` between them; a process running it is in phase `committing`
(it set `log.committing` and is about to call `commit()`) or `committed`
(`commit()` returned, the second critical section is next).

Panics (`log_write`'s and `end_op`'s) are errors of the step.

The ghost fields of `Sys` record, for each process, the blocks its current
operation has logged, and the block lists of the operations that have called
`end_op` since the last commit.
-/

namespace Xv6.Kernel

open Xv6.Lib

/-- The fields of `struct log` the protocol shares. -/
structure LogState where
  /-- `log.size`, from the superblock's `nlog`. -/
  size : Int
  /-- How many FS sys calls are executing. -/
  outstanding : Int
  /-- In `commit()`, please wait. -/
  committing : Bool
  /-- `log.lh`, the running transaction. -/
  lh : LogHeader
  deriving DecidableEq, Repr

/-- Log absorption: a block already in the header keeps its slot, a new one
is appended (`log_write`'s search loop, then `block[i] = blockno` and `n++`
when `i == n`). -/
def LogHeader.absorb (lh : LogHeader) (b : UInt32) : LogHeader :=
  if b ∈ lh.block then lh else ⟨lh.block ++ [b]⟩

/-- `begin_op`: `none` while it would sleep. -/
def beginOp (s : LogState) : Option LogState :=
  if s.committing then none
  else if s.lh.n + (s.outstanding + 1) * maxOpBlocks > logSize then none
  else some { s with outstanding := s.outstanding + 1 }

/-- `log_write` of the buffer of block `b`. -/
def logWrite (s : LogState) (b : UInt32) : Except String LogState :=
  if s.lh.n ≥ logSize ∨ s.lh.n ≥ s.size - 1 then .error "too big a transaction"
  else if s.outstanding < 1 then .error "log_write outside of trans"
  else .ok { s with lh := s.lh.absorb b }

/-- `end_op`'s first critical section; the flag is `do_commit`. -/
def endOp (s : LogState) : Except String (LogState × Bool) :=
  let s := { s with outstanding := s.outstanding - 1 }
  if s.committing then .error "log.committing"
  else if s.outstanding = 0 then .ok ({ s with committing := true }, true)
  else .ok (s, false)

/-- `commit()`'s effect on `log.lh`: cleared once written (`log.lh.n = 0`). -/
def commitLh (s : LogState) : LogState :=
  if 0 < s.lh.n then { s with lh := LogHeader.empty } else s

/-- `end_op`'s critical section after `commit()`. -/
def endCommit (s : LogState) : LogState := { s with committing := false }

/-- `log` after `initlog`: `log.size = sb->nlog`, and recovery leaves
`log.lh.n = 0`. -/
def initLog (nlog : Int) : LogState := ⟨nlog, 0, false, LogHeader.empty⟩

/-! ## Processes -/

/-- Where a process stands in the protocol. -/
inductive Phase where
  | idle
  /-- between `begin_op` and `end_op` -/
  | inOp
  /-- in `end_op`, `log.committing` set, `commit()` next -/
  | committing
  /-- in `end_op`, `commit()` returned -/
  | committed
  deriving DecidableEq, Repr

/-- One call or critical section of process `p`. -/
inductive TxnEv (Pid : Type) where
  | beginOp (p : Pid)
  | logWrite (p : Pid) (b : UInt32)
  | endOp (p : Pid)
  | commit (p : Pid)
  | endCommit (p : Pid)

/-- The shared log and each process's phase, with the ghost record of
logged blocks. -/
structure Sys (Pid : Type) where
  log : LogState
  phase : Pid → Phase
  /-- the blocks the current operation of each process has logged -/
  logged : Pid → List UInt32
  /-- the block lists of operations that called `end_op` since the last commit -/
  ended : List (List UInt32)

namespace Sys

variable {Pid : Type} [DecidableEq Pid]

/-- The state after `initlog`, every process idle. -/
def init (nlog : Int) : Sys Pid := ⟨initLog nlog, fun _ => .idle, fun _ => [], []⟩

/-- One event: `none` when `p` is not where the event happens (or
`begin_op` would sleep), an error when the kernel panics. -/
def step (σ : Sys Pid) : TxnEv Pid → Option (Except String (Sys Pid))
  | .beginOp p =>
    if σ.phase p = .idle then
      (beginOp σ.log).map fun l => .ok { σ with
        log := l, phase := Function.update σ.phase p .inOp,
        logged := Function.update σ.logged p [] }
    else none
  | .logWrite p b =>
    if σ.phase p = .inOp then
      some ((logWrite σ.log b).map fun l => { σ with
        log := l, logged := Function.update σ.logged p (LogHeader.absorb ⟨σ.logged p⟩ b).block })
    else none
  | .endOp p =>
    if σ.phase p = .inOp then
      some ((endOp σ.log).map fun (l, c) => { σ with
        log := l, phase := Function.update σ.phase p (if c then .committing else .idle),
        logged := Function.update σ.logged p [], ended := σ.ended ++ [σ.logged p] })
    else none
  | .commit p =>
    if σ.phase p = .committing then
      some (.ok { σ with
        log := commitLh σ.log, phase := Function.update σ.phase p .committed, ended := [] })
    else none
  | .endCommit p =>
    if σ.phase p = .committed then
      some (.ok { σ with
        log := endCommit σ.log, phase := Function.update σ.phase p .idle })
    else none

end Sys

/-- The protocol as a transition system: runs that do not panic. -/
def txnSys (Pid : Type) [DecidableEq Pid] (nlog : Int) : TSys (Sys Pid) (TxnEv Pid) where
  init σ := σ = Sys.init nlog
  step σ e σ' := σ.step e = some (.ok σ')

/-! ## What each event does -/

namespace Sys

variable {Pid : Type} [DecidableEq Pid] {σ σ' : Sys Pid} {p : Pid}

theorem step_beginOp (h : σ.step (.beginOp p) = some (.ok σ')) :
    σ.phase p = .idle ∧ σ.log.committing = false ∧
      σ' = { σ with
        log := { σ.log with outstanding := σ.log.outstanding + 1 },
        phase := Function.update σ.phase p .inOp, logged := Function.update σ.logged p [] } := by
  simp only [step, beginOp] at h
  split_ifs at h with hp hc ha <;>
    simp only [Option.map_some, Option.map_none, Option.some.injEq, Except.ok.injEq,
      reduceCtorEq] at h
  exact ⟨hp, by simpa using hc, h.symm⟩

theorem step_logWrite {b : UInt32} (h : σ.step (.logWrite p b) = some (.ok σ')) :
    σ.phase p = .inOp ∧ σ' = { σ with
      log := { σ.log with lh := σ.log.lh.absorb b },
      logged := Function.update σ.logged p (LogHeader.absorb ⟨σ.logged p⟩ b).block } := by
  simp only [step, logWrite] at h
  split_ifs at h with hp <;>
    simp only [Except.map, Option.some.injEq, Except.ok.injEq, reduceCtorEq] at h
  exact ⟨hp, h.symm⟩

theorem step_endOp (h : σ.step (.endOp p) = some (.ok σ')) :
    σ.phase p = .inOp ∧ σ.log.committing = false ∧
      σ' = { σ with
        log := { σ.log with
          outstanding := σ.log.outstanding - 1, committing := decide (σ.log.outstanding - 1 = 0) },
        phase := Function.update σ.phase p
          (if σ.log.outstanding - 1 = 0 then .committing else .idle),
        logged := Function.update σ.logged p [], ended := σ.ended ++ [σ.logged p] } := by
  simp only [step, endOp] at h
  split_ifs at h with hp hc ho <;>
    simp only [Except.map, Option.some.injEq, Except.ok.injEq, reduceCtorEq] at h
  · exact ⟨hp, by simpa using hc, by rw [← h]; simp [ho]⟩
  · refine ⟨hp, by simpa using hc, ?_⟩
    rw [← h]
    simp only [ho, decide_false, if_false]
    have hc' : σ.log.committing = false := by simpa using hc
    rw [← hc']

theorem step_commit (h : σ.step (.commit p) = some (.ok σ')) :
    σ.phase p = .committing ∧ σ' = { σ with
      log := commitLh σ.log, phase := Function.update σ.phase p .committed, ended := [] } := by
  simp only [step] at h
  split_ifs at h with hp
  simp only [Option.some.injEq, Except.ok.injEq] at h
  exact ⟨hp, h.symm⟩

theorem step_endCommit (h : σ.step (.endCommit p) = some (.ok σ')) :
    σ.phase p = .committed ∧ σ' = { σ with
      log := endCommit σ.log, phase := Function.update σ.phase p .idle } := by
  simp only [step] at h
  split_ifs at h with hp
  simp only [Option.some.injEq, Except.ok.injEq] at h
  exact ⟨hp, h.symm⟩

end Sys

/-! ## The invariant -/

theorem LogHeader.mem_absorb {lh : LogHeader} {b x : UInt32} :
    x ∈ (lh.absorb b).block ↔ x ∈ lh.block ∨ x = b := by
  unfold LogHeader.absorb
  split_ifs with h
  · constructor
    · exact Or.inl
    · rintro (hx | rfl)
      · exact hx
      · exact h
  · simp

@[simp] theorem commitLh_outstanding (s : LogState) :
    (commitLh s).outstanding = s.outstanding := by
  unfold commitLh; split_ifs <;> rfl

@[simp] theorem commitLh_committing (s : LogState) : (commitLh s).committing = s.committing := by
  unfold commitLh; split_ifs <;> rfl

/-- After `commit()` the in-memory header is empty. -/
theorem commitLh_block (s : LogState) : (commitLh s).lh.block = [] := by
  unfold commitLh
  split_ifs with hn
  · rfl
  · exact List.length_eq_zero_iff.mp (by simp only [LogHeader.n] at hn; omega)

/-- A process between `commit()`'s decision and the end of `end_op`. -/
def Phase.InCommit (ph : Phase) : Prop := ph = .committing ∨ ph = .committed

section Invariant

variable {Pid : Type} [Fintype Pid] [DecidableEq Pid]

/-- What holds between critical sections: `log.outstanding` counts the
processes inside an operation, `log.committing` is set exactly while one
process runs the commit and then no operation is open, and `log.lh` holds
exactly the blocks logged by open operations and by operations ended since
the last commit. -/
structure TxnInv (σ : Sys Pid) : Prop where
  outstanding_eq : σ.log.outstanding = count σ.phase .inOp
  committing_iff : σ.log.committing = true ↔ ∃ p, (σ.phase p).InCommit
  committer_unique : ∀ p q, (σ.phase p).InCommit → (σ.phase q).InCommit → p = q
  quiet : σ.log.committing = true → ∀ p, σ.phase p ≠ .inOp
  lh_mem : ∀ b, b ∈ σ.log.lh.block ↔ (∃ op ∈ σ.ended, b ∈ op) ∨
    ∃ p, σ.phase p = .inOp ∧ b ∈ σ.logged p

omit [DecidableEq Pid] in
theorem TxnInv.init (nlog : Int) : TxnInv (Sys.init nlog : Sys Pid) where
  outstanding_eq := by
    have : count (fun _ : Pid => Phase.idle) .inOp = 0 := count_eq_zero_iff.mpr (by simp)
    simp [Sys.init, initLog, this]
  committing_iff := by simp [Sys.init, initLog, Phase.InCommit]
  committer_unique := by simp [Sys.init, Phase.InCommit]
  quiet := by simp [Sys.init, initLog]
  lh_mem := by simp [Sys.init, initLog, LogHeader.empty]

variable {σ σ' : Sys Pid} {p : Pid}

theorem TxnInv.beginOp (hi : TxnInv σ) (h : σ.step (.beginOp p) = some (.ok σ')) :
    TxnInv σ' := by
  obtain ⟨hp, hc, rfl⟩ := Sys.step_beginOp h
  have hnot : ∀ q, ¬(σ.phase q).InCommit := by
    intro q hq
    exact absurd (hi.committing_iff.mpr ⟨q, hq⟩) (by simp [hc])
  refine ⟨?_, ?_, ?_, ?_, ?_⟩
  · rw [count_update_enter (by simp [hp]), hi.outstanding_eq]
    push_cast
    rfl
  · simp only [hc, Bool.false_eq_true, false_iff, not_exists]
    intro q
    by_cases hq : q = p
    · subst hq
      simp [Phase.InCommit]
    · simpa [Function.update_of_ne hq] using hnot q
  · intro q r hq
    by_cases hqp : q = p
    · subst hqp
      simp [Phase.InCommit] at hq
    · exact absurd (by simpa [Function.update_of_ne hqp] using hq) (hnot q)
  · simp [hc]
  · intro b
    rw [hi.lh_mem b]
    constructor
    · rintro (h | ⟨q, hq, hb⟩)
      · exact Or.inl h
      · have hqp : q ≠ p := fun he => by simp [he, hp] at hq
        exact Or.inr ⟨q, by simp [Function.update_of_ne hqp, hq],
          by simpa [Function.update_of_ne hqp] using hb⟩
    · rintro (h | ⟨q, hq, hb⟩)
      · exact Or.inl h
      · by_cases hqp : q = p
        · subst hqp
          simp at hb
        · exact Or.inr ⟨q, by simpa [Function.update_of_ne hqp] using hq,
            by simpa [Function.update_of_ne hqp] using hb⟩

theorem TxnInv.logWrite (hi : TxnInv σ) {b : UInt32}
    (h : σ.step (.logWrite p b) = some (.ok σ')) : TxnInv σ' := by
  obtain ⟨hp, rfl⟩ := Sys.step_logWrite h
  refine ⟨hi.outstanding_eq, hi.committing_iff, hi.committer_unique, hi.quiet, ?_⟩
  intro x
  simp only [LogHeader.mem_absorb, hi.lh_mem x]
  constructor
  · rintro ((hx | ⟨q, hq, hx⟩) | rfl)
    · exact Or.inl hx
    · refine Or.inr ⟨q, hq, ?_⟩
      by_cases hqp : q = p
      · subst hqp
        simp [LogHeader.mem_absorb, hx]
      · simpa [Function.update_of_ne hqp] using hx
    · exact Or.inr ⟨p, hp, by simp [LogHeader.mem_absorb]⟩
  · rintro (hx | ⟨q, hq, hx⟩)
    · exact Or.inl (Or.inl hx)
    · by_cases hqp : q = p
      · subst hqp
        simp only [Function.update_self, LogHeader.mem_absorb] at hx
        rcases hx with hx | rfl
        · exact Or.inl (Or.inr ⟨q, hq, hx⟩)
        · exact Or.inr rfl
      · exact Or.inl (Or.inr ⟨q, hq, by simpa [Function.update_of_ne hqp] using hx⟩)

theorem TxnInv.endOp (hi : TxnInv σ) (h : σ.step (.endOp p) = some (.ok σ')) :
    TxnInv σ' := by
  obtain ⟨hp, hc, rfl⟩ := Sys.step_endOp h
  have hnot : ∀ q, ¬(σ.phase q).InCommit := fun q hq =>
    absurd (hi.committing_iff.mpr ⟨q, hq⟩) (by simp [hc])
  -- `p` leaves its operation, for the commit or for good
  have hcount : count (Function.update σ.phase p
      (if σ.log.outstanding - 1 = 0 then .committing else .idle)) .inOp + 1 =
      count σ.phase .inOp := count_update_leave hp (by split <;> simp)
  have ho := hi.outstanding_eq
  refine ⟨?_, ?_, ?_, ?_, ?_⟩
  · show σ.log.outstanding - 1 = (count (Function.update σ.phase p
      (if σ.log.outstanding - 1 = 0 then .committing else .idle)) .inOp : Int)
    omega
  · by_cases h0 : σ.log.outstanding - 1 = 0
    · simp only [h0, decide_true, if_true, true_iff]
      exact ⟨p, by simp [Phase.InCommit]⟩
    · simp only [h0, decide_false, if_false, Bool.false_eq_true, false_iff, not_exists]
      intro q
      by_cases hqp : q = p
      · subst hqp
        simp [Phase.InCommit]
      · simpa [Function.update_of_ne hqp] using hnot q
  · -- only `p` can be committing
    have hq : ∀ q, (Function.update σ.phase p
        (if σ.log.outstanding - 1 = 0 then .committing else .idle) q).InCommit → q = p := by
      intro q hq
      by_contra hqp
      exact hnot q (by simpa [Function.update_of_ne hqp] using hq)
    intro q r hq' hr'
    rw [hq q hq', hq r hr']
  · -- committing now means no process was left in an operation
    intro hc' q
    have h0 : σ.log.outstanding - 1 = 0 := by simpa using hc'
    have hz : count (Function.update σ.phase p
        (if σ.log.outstanding - 1 = 0 then .committing else .idle)) .inOp = 0 := by omega
    exact count_eq_zero_iff.mp hz q
  · intro b
    rw [hi.lh_mem b]
    simp only [List.mem_append, List.mem_singleton]
    constructor
    · rintro (⟨op, hop, hb⟩ | ⟨q, hq, hb⟩)
      · exact Or.inl ⟨op, Or.inl hop, hb⟩
      · by_cases hqp : q = p
        · subst hqp
          exact Or.inl ⟨σ.logged q, Or.inr rfl, hb⟩
        · exact Or.inr ⟨q, by simp [Function.update_of_ne hqp, hq],
            by simpa [Function.update_of_ne hqp] using hb⟩
    · rintro (⟨op, hop | rfl, hb⟩ | ⟨q, hq, hb⟩)
      · exact Or.inl ⟨op, hop, hb⟩
      · exact Or.inr ⟨p, hp, hb⟩
      · have hqp : q ≠ p := by
          rintro rfl
          simp only [Function.update_self] at hq
          split at hq <;> simp at hq
        exact Or.inr ⟨q, by simpa [Function.update_of_ne hqp] using hq,
          by simpa [Function.update_of_ne hqp] using hb⟩

theorem TxnInv.commit (hi : TxnInv σ) (h : σ.step (.commit p) = some (.ok σ')) :
    TxnInv σ' := by
  obtain ⟨hp, rfl⟩ := Sys.step_commit h
  have hc : σ.log.committing = true := hi.committing_iff.mpr ⟨p, Or.inl hp⟩
  have hne : ∀ q, Function.update σ.phase p .committed q = .inOp ↔ σ.phase q = .inOp := by
    intro q
    by_cases hqp : q = p
    · subst hqp
      simp [hp]
    · simp [Function.update_of_ne hqp]
  refine ⟨?_, ?_, ?_, ?_, ?_⟩
  · rw [commitLh_outstanding, hi.outstanding_eq, count_update_same (by simp [hp])]
  · simp only [commitLh_committing, hc, true_iff]
    exact ⟨p, by simp [Phase.InCommit]⟩
  · intro q r hq hr
    have key : ∀ q, (Function.update σ.phase p .committed q).InCommit → q = p := by
      intro q hq
      by_contra hqp
      exact hqp (hi.committer_unique q p (by simpa [Function.update_of_ne hqp] using hq)
        (Or.inl hp))
    rw [key q hq, key r hr]
  · intro _ q hq
    exact hi.quiet hc q ((hne q).mp hq)
  · intro b
    simp only [commitLh_block, List.mem_nil_iff, false_iff, not_or,
      not_exists, not_and]
    exact ⟨fun _ h => h.elim, fun q hq => absurd ((hne q).mp hq) (hi.quiet hc q)⟩

theorem TxnInv.endCommit (hi : TxnInv σ) (h : σ.step (.endCommit p) = some (.ok σ')) :
    TxnInv σ' := by
  obtain ⟨hp, rfl⟩ := Sys.step_endCommit h
  -- `p` was the only process in the commit, and now none is
  have hnone : ∀ q, ¬(Function.update σ.phase p .idle q).InCommit := by
    intro q hq
    by_cases hqp : q = p
    · subst hqp
      simp [Phase.InCommit] at hq
    · exact hqp (hi.committer_unique q p (by simpa [Function.update_of_ne hqp] using hq)
        (Or.inr hp))
  have hne : ∀ q, Function.update σ.phase p .idle q = .inOp ↔ σ.phase q = .inOp := by
    intro q
    by_cases hqp : q = p
    · subst hqp
      simp [hp]
    · simp [Function.update_of_ne hqp]
  refine ⟨?_, ?_, ?_, ?_, ?_⟩
  · show σ.log.outstanding = (count (Function.update σ.phase p .idle) .inOp : Int)
    rw [hi.outstanding_eq, count_update_same (by simp [hp])]
  · simp only [endCommit, Bool.false_eq_true, false_iff, not_exists]
    exact hnone
  · intro q _ hq
    exact absurd hq (hnone q)
  · simp [endCommit]
  · intro b
    show b ∈ σ.log.lh.block ↔ (∃ op ∈ σ.ended, b ∈ op) ∨
      ∃ q, Function.update σ.phase p .idle q = .inOp ∧ b ∈ σ.logged q
    rw [hi.lh_mem b]
    simp only [hne]

/-- The invariant holds in every state of a run that does not panic. -/
theorem txnInv_invariant (nlog : Int) : (txnSys Pid nlog).Invariant TxnInv := by
  apply TSys.Invariant.of_inductive
  · intro σ hσ
    rw [hσ]
    exact TxnInv.init nlog
  · intro σ e σ' hi hstep
    cases e with
    | beginOp p => exact hi.beginOp hstep
    | logWrite p b => exact hi.logWrite hstep
    | endOp p => exact hi.endOp hstep
    | commit p => exact hi.commit hstep
    | endCommit p => exact hi.endCommit hstep

/-- Group commit never exposes a partial operation. In every state of every
interleaving: `log.outstanding` is never negative; while `log.committing` is
set no operation is open, so no `begin_op` has returned into the commit; and
a process about to enter `commit()` finds `log.outstanding = 0` and `log.lh`
holding exactly the blocks logged by the operations that have called
`end_op` since the last commit. -/
theorem group_commit (Pid : Type) [Fintype Pid] [DecidableEq Pid] (nlog : Int) :
    (txnSys Pid nlog).Invariant fun σ =>
      0 ≤ σ.log.outstanding ∧
      (σ.log.committing = true → ∀ p, σ.phase p ≠ .inOp) ∧
      ∀ p, σ.phase p = .committing →
        σ.log.outstanding = 0 ∧ ∀ b, b ∈ σ.log.lh.block ↔ ∃ op ∈ σ.ended, b ∈ op := by
  refine TSys.Invariant.mono (txnInv_invariant nlog) fun σ hi => ?_
  refine ⟨by rw [hi.outstanding_eq]; omega, hi.quiet, ?_⟩
  intro p hp
  have hc : σ.log.committing = true := hi.committing_iff.mpr ⟨p, Or.inl hp⟩
  have hz : count σ.phase .inOp = 0 := count_eq_zero_iff.mpr (hi.quiet hc)
  refine ⟨by rw [hi.outstanding_eq, hz]; rfl, fun b => ?_⟩
  -- no operation is open, so only the ended ones contribute
  rw [hi.lh_mem b]
  simp [hi.quiet hc]

end Invariant

/-! ## Admission against `LOGSIZE`, panic against `log.size - 1` -/

namespace Sys

variable {Pid : Type} [DecidableEq Pid]

/-- Run events in order: the first panic, `none` if some event cannot
happen, else the final state. -/
def run (σ : Sys Pid) : List (TxnEv Pid) → Option (Except String (Sys Pid))
  | [] => some (.ok σ)
  | e :: es =>
    match σ.step e with
    | some (.ok σ') => σ'.run es
    | r => r

end Sys

/-- Process `p` logs the ten distinct blocks `base .. base + 9`. -/
def tenBlocks (p : Fin 3) (base : Nat) : List (TxnEv (Fin 3)) :=
  (List.range 10).map fun i => .logWrite p (UInt32.ofNat (base + i))

/-- Three operations admitted together (`0 + 3 * MAXOPBLOCKS ≤ LOGSIZE`),
each logging `MAXOPBLOCKS` distinct blocks. -/
def threeFullOps : List (TxnEv (Fin 3)) :=
  [.beginOp 0, .beginOp 1, .beginOp 2] ++ tenBlocks 0 100 ++ tenBlocks 1 110 ++ tenBlocks 2 120

/-- On the log `mkfs` lays out (`nlog = LOGSIZE`), the thirtieth `log_write`
panics: `begin_op` admitted all three operations against `LOGSIZE`, but the
header takes one of the `LOGSIZE` log blocks, and `lh.n = 29 >= log.size - 1`. -/
theorem threeFullOps_panics :
    (Sys.init logSize : Sys (Fin 3)).run threeFullOps = some (.error "too big a transaction") := by
  rfl

end Xv6.Kernel
