import Xv6.Kernel.Proc

/-!
# `nextpid` is a C `int`

`allocpid` hands out `nextpid` and adds one to it. `nextpid` is a C `int`,
and nothing checks it: the add wraps at `2^31` (the kernel is built without
`-fwrapv`, and GCC's `addw` wraps). The process table (`ProcTable.Table`)
counts with unbounded integers, and `cInt n` is the `int` the kernel holds for
the count `n`; `allocpid_cInt` says the two counters step together.

`initproc` can fork, its child exit and `initproc` reap it, again and again.
Each such cycle leaves the table as it found it, but for `nextpid` and the
records of exits and reaps (`run_forkExitWait`, `run_cycles`). So every count
is reached, and the kernel's `int` runs through every value:

* `pid_counter_wraps` — after `2^31 - 1` forks from boot a child gets the pid
  `INT_MIN`, and after `2^32` forks a child gets pid `1`, the pid of the
  living `initproc`.
-/

namespace Xv6.Kernel.ProcTable

open Xv6.Lib

/-- `allocpid()` on the kernel's `int nextpid`: the pid, and the next `nextpid`. -/
def allocpid (nextpid : Int32) : Int32 × Int32 :=
  let pid := nextpid
  (pid, nextpid + 1)

/-- The table's `fork` counts as `allocpid` does on the kernel's `int`. -/
theorem allocpid_cInt (n : Int) : allocpid (cInt n) = (cInt n, cInt (n + 1)) := by
  simp only [allocpid, cInt, Int32.ofInt_add]
  rfl

/-! ## Fork, exit and wait, over and over -/

/-- `initproc`'s record while it runs. -/
def initRunning : Proc := { Proc.free with state := .running, pid := 1 }

/-- `initproc` running with a child in slot `1` in state `st` with pid `n`,
the count at `n + 1`. -/
def withChild (n : Int) (st : ProcState) (ex rp : List (Int × Int)) : Table where
  procs i := if i = initproc then initRunning
    else if i = 1 then { Proc.free with pid := n, parent := some initproc, state := st }
    else Proc.free
  nextpid := n + 1
  exits := ex
  reaps := rp

/-- `initproc` running alone, with the count at `n`. -/
def alone (n : Int) (ex rp : List (Int × Int)) : Table where
  procs i := if i = initproc then initRunning else Proc.free
  nextpid := n
  exits := ex
  reaps := rp

/-- `initproc` forks, the child runs and exits with status `0`, and
`initproc` reaps it. -/
def forkExitWait : List (Fin nProc × Ev) :=
  [(initproc, .fork true), (1, .run), (1, .exit 0), (initproc, .wait 0 true)]

theorem Table.ext_procs {t t' : Table} (hp : ∀ i, t.procs i = t'.procs i)
    (hn : t.nextpid = t'.nextpid) (he : t.exits = t'.exits) (hr : t.reaps = t'.reaps) : t = t' := by
  cases t
  cases t'
  simp only at hp hn he hr
  rw [funext hp, hn, he, hr]

theorem one_ne_initproc : (1 : Fin nProc) ≠ initproc := by decide

/-- A scan of the slots that skips slot `0` and takes slot `1`. -/
theorem find?_finRange_one {P : Fin nProc → Bool} (h0 : P 0 = false) (h1 : P 1 = true) :
    (List.finRange nProc).find? P = some 1 := by
  rw [List.find?_eq_some_iff_getElem]
  refine ⟨h1, 1, by simp [nProc], by simp [List.getElem_finRange]; rfl, fun j hj => ?_⟩
  -- the only slot before `1` is `0`
  have hj0 : j = 0 := by omega
  subst hj0
  simp [List.getElem_finRange]
  exact h0

theorem wakeup_of_awake {t : Table} (h : ∀ i, (t.procs i).state ≠ .sleeping) (me : Fin nProc)
    (c : Chan) : t.wakeup me c = t :=
  Table.ext_procs (fun i => by simp [Table.wakeup, h i]) rfl rfl rfl

theorem reparent_of_childless {t : Table} {p : Fin nProc} (h : ∀ i, (t.procs i).parent ≠ some p) :
    t.reparent p = t := by
  have hadopt : ∀ i, (t.procs i).adopt p = t.procs i := fun i => if_neg (h i)
  unfold Table.reparent
  rw [if_neg (not_exists.mpr h)]
  exact Table.ext_procs hadopt rfl rfl rfl

/-- The child is the only process with a parent, and no one sleeps. -/
theorem withChild_procs (n : Int) (st : ProcState) (ex rp : List (Int × Int)) (i : Fin nProc) :
    ((withChild n st ex rp).procs i).parent = (if i = 1 then some initproc else none) ∧
      (((withChild n st ex rp).procs i).state = .sleeping → i = 1 ∧ st = .sleeping) := by
  by_cases h0 : i = initproc
  · subst h0
    simp [withChild, initRunning, Proc.free, one_ne_initproc.symm]
  · by_cases h1 : i = 1
    · subst h1
      simp [withChild, one_ne_initproc]
    · simp [withChild, Proc.free, h0, h1]

theorem step_fork_alone (n : Int) (ex rp : List (Int × Int)) :
    (alone n ex rp).step (initproc, .fork true) = .ok (withChild n .runnable ex rp) := by
  have halloc : (alone n ex rp).allocproc = some 1 :=
    find?_finRange_one rfl rfl
  have hrun : ((alone n ex rp).procs initproc).state = .running := rfl
  simp only [Table.step, Table.onCpu, Table.fork, halloc, hrun, if_true]
  refine congrArg Except.ok (Table.ext_procs (fun i => ?_) rfl rfl rfl)
  by_cases h1 : i = 1
  · subst h1
    simp [withChild, alone, Table.set, one_ne_initproc]
  · simp [withChild, alone, Table.set, h1]

theorem step_run_child (n : Int) (ex rp : List (Int × Int)) :
    (withChild n .runnable ex rp).step (1, .run) = .ok (withChild n .running ex rp) := by
  have hst : ((withChild n .runnable ex rp).procs 1).state = .runnable := rfl
  simp only [Table.step, hst, if_true]
  refine congrArg Except.ok (Table.ext_procs (fun i => ?_) rfl rfl rfl)
  by_cases h1 : i = 1
  · subst h1
    simp [withChild, Table.set, one_ne_initproc]
  · simp [withChild, Table.set, h1]

theorem step_exit_child (n : Int) (ex rp : List (Int × Int)) :
    (withChild n .running ex rp).step (1, .exit 0) =
      .ok (withChild n .zombie (ex ++ [(n, 0)]) rp) := by
  set t := withChild n .running ex rp
  have hrun : (t.procs 1).state = .running := rfl
  have hchildless : ∀ i, (t.procs i).parent ≠ some 1 := fun i => by
    rw [(withChild_procs n .running ex rp i).1]
    split_ifs <;> simp [one_ne_initproc.symm]
  have hawake : ∀ i, (t.procs i).state ≠ .sleeping := fun i hs =>
    absurd ((withChild_procs n .running ex rp i).2 hs).2 (by decide)
  have hparent : (t.procs 1).parent = some initproc := rfl
  simp only [Table.step, Table.onCpu, hrun, if_true, Table.exit, if_neg one_ne_initproc,
    reparent_of_childless hchildless, hparent, wakeup_of_awake hawake]
  refine congrArg Except.ok (Table.ext_procs (fun i => ?_) rfl rfl rfl)
  by_cases h1 : i = 1
  · subst h1
    simp [t, withChild, Table.set, Proc.free, one_ne_initproc]
  · simp [t, withChild, Table.set, h1]

theorem step_wait_init (n : Int) (ex rp : List (Int × Int)) :
    (withChild n .zombie ex rp).step (initproc, .wait 0 true) =
      .ok (alone (n + 1) ex (rp ++ [(n, 0)])) := by
  set t := withChild n .zombie ex rp
  have hrun : (t.procs initproc).state = .running := rfl
  have hfind : (List.finRange nProc).find? (fun c =>
      (t.procs c).parent == some initproc && (t.procs c).state == .zombie) = some 1 :=
    find?_finRange_one rfl rfl
  simp only [Table.step, Table.onCpu, hrun, if_true, Table.wait, hfind]
  refine congrArg Except.ok (Table.ext_procs (fun i => ?_) rfl rfl rfl)
  by_cases h1 : i = 1
  · subst h1
    simp [t, withChild, alone, Table.set, one_ne_initproc]
  · simp [t, withChild, alone, Table.set, h1]

/-- One cycle: the table is as before, the count one on. -/
theorem run_forkExitWait (n : Int) (ex rp : List (Int × Int)) :
    procSys.Run (alone n ex rp) forkExitWait (alone (n + 1) (ex ++ [(n, 0)]) (rp ++ [(n, 0)])) :=
  .cons (step_fork_alone n ex rp) <| .cons (step_run_child n ex rp) <|
    .cons (step_exit_child n ex rp) <| .cons (step_wait_init n (ex ++ [(n, 0)]) rp) (.nil _)

/-- `k` cycles: the count moves on by `k`. -/
theorem run_cycles (k : Nat) : ∀ (n : Int) (ex rp : List (Int × Int)), ∃ ex' rp',
    procSys.Run (alone n ex rp) (List.replicate k forkExitWait).flatten (alone (n + k) ex' rp') := by
  induction k with
  | zero =>
    intro n ex rp
    exact ⟨ex, rp, by simpa using .nil _⟩
  | succ k ih =>
    intro n ex rp
    obtain ⟨ex', rp', hrun⟩ := ih (n + 1) (ex ++ [(n, 0)]) (rp ++ [(n, 0)])
    have hcount : n + 1 + k = n + ((k + 1 : Nat) : Int) := by omega
    refine ⟨ex', rp', ?_⟩
    rw [List.replicate_succ, List.flatten_cons, ← hcount]
    exact (run_forkExitWait n ex rp).append hrun

theorem bootRunning_eq : bootRunning = alone 2 [] [] := by
  refine Table.ext_procs (fun i => ?_) rfl rfl rfl
  by_cases h0 : i = initproc
  · subst h0
    simp [bootRunning, alone, boot, Table.set, initRunning]
  · simp [bootRunning, alone, boot, Table.set, h0]

/-- Every count from `2` on is reached, with `initproc` running alone. -/
theorem reachable_alone (k : Nat) : ∃ ex rp, procSys.Reachable (alone (2 + k) ex rp) := by
  have hboot : procSys.Reachable bootRunning :=
    .step (.init rfl) (show boot.step (initproc, .run) = .ok bootRunning from rfl)
  obtain ⟨ex, rp, hrun⟩ := run_cycles k 2 [] []
  rw [← bootRunning_eq] at hrun
  exact ⟨ex, rp, hrun.reachable hboot⟩

/-- The kernel's `nextpid` wraps. After `2^31 - 1` forks from boot, `allocpid`
gives a child the pid `INT_MIN`; after `2^32` forks a child gets pid `1`, the
pid of `initproc`, which is still alive. -/
theorem pid_counter_wraps :
    (∃ t t', procSys.Reachable t ∧ procSys.step t (initproc, .fork true) t' ∧
      (t'.procs 1).state ≠ .unused ∧ (t'.procs 1).pid = t.nextpid ∧
      (allocpid (cInt t.nextpid)).1 = -2147483648) ∧
    (∃ t t', procSys.Reachable t ∧ procSys.step t (initproc, .fork true) t' ∧
      (t'.procs 1).state ≠ .unused ∧ (t'.procs initproc).state ≠ .unused ∧
      (allocpid (cInt t.nextpid)).1 = cInt (t'.procs initproc).pid) := by
  constructor
  · obtain ⟨ex, rp, hr⟩ := reachable_alone (2 ^ 31 - 2)
    have hcount : (2 : Int) + ((2 ^ 31 - 2 : Nat) : Int) = 2147483648 := by decide
    rw [hcount] at hr
    refine ⟨_, _, hr, step_fork_alone _ ex rp, by simp [withChild, one_ne_initproc], rfl, ?_⟩
    show (allocpid (cInt 2147483648)).1 = -2147483648
    decide
  · obtain ⟨ex, rp, hr⟩ := reachable_alone (2 ^ 32 - 1)
    have hcount : (2 : Int) + ((2 ^ 32 - 1 : Nat) : Int) = 4294967297 := by decide
    rw [hcount] at hr
    refine ⟨_, _, hr, step_fork_alone _ ex rp, by simp [withChild, one_ne_initproc],
      by simp [withChild, initRunning], ?_⟩
    show (allocpid (cInt 4294967297)).1 = cInt 1
    decide

end Xv6.Kernel.ProcTable
