import Mathlib.Logic.Function.Basic
import Mathlib.Tactic.SplitIfs
import Mathlib.Tactic.Set
import Mathlib.Algebra.Group.Int.Defs
import Xv6.Lib.Forest
import Xv6.Lib.Reach
import Xv6.Kernel.Param

/-!
# The process table (`kernel/proc.c`)

The fields of `struct proc` that creation and teardown of processes read and
write: the state, the sleep channel, `killed`, `xstate`, `pid` and `parent`.
`fork`, `exit`, `wait` and `kill` each run under `wait_lock` and the locks of
the processes they touch, so each is one step; `sleep` is blocking, and a
process sleeping in `wait` makes a new pass of the loop as a new `wait` once
it runs again. The scheduler's moves (`run`, `yield`, `sleep`, `wakeup`) are
steps of their own, and any process may be woken at any moment.

`initproc` is the first slot, which `userinit` takes at boot.

The table counts `nextpid` with unbounded integers, and `Proc.pid` is the
count `allocpid` gave the process: a number that no two processes share.
The kernel's `int nextpid` wraps at `2^31`, and the pid the kernel holds is
`cInt` of the count. Everything the kernel compares or returns is that `int`:
`fork` and `wait` return it, `kill` compares it with its argument, so the
table behaves as the kernel does however often the count wraps
(`Xv6.Kernel.ProcTable.pid_counter_wraps` shows that it does). The ghost lists
`exits` and `reaps` record, by the process's number, the status each `exit`
stored and each successful `wait` freed: they name processes, where the
kernel's pids repeat.
-/

namespace Xv6.Kernel.ProcTable

open Xv6.Lib

/-- `enum procstate`. -/
inductive ProcState where
  | unused | used | sleeping | runnable | running | zombie
  deriving DecidableEq, Repr

/-- What `sleep` waits on: the address of a process (`wait` sleeps on its own,
`exit` wakes the parent and `initproc`), or any other address. -/
inductive Chan where
  | proc (i : Fin nProc)
  | other (a : Nat)
  deriving DecidableEq, Repr

/-- The fields of `struct proc` that `fork`, `exit`, `wait` and `kill` use. -/
structure Proc where
  state : ProcState
  chan : Option Chan
  killed : Bool
  xstate : Int
  pid : Int
  parent : Option (Fin nProc)
  deriving DecidableEq, Repr

/-- The slot `freeproc` leaves, and `procinit`'s: `UNUSED`, every field zero. -/
def Proc.free : Proc := ⟨.unused, none, false, 0, 0, none⟩

/-- `proc[NPROC]` and `nextpid`, with the ghost record of exits and reaps. -/
structure Table where
  procs : Fin nProc → Proc
  nextpid : Int
  exits : List (Int × Int)
  reaps : List (Int × Int)

/-- The `int` the kernel holds for a count of the table. -/
def cInt (n : Int) : Int32 := Int32.ofInt n

/-- A count in `(0, 2^32)` is not the `int` `0`. -/
theorem cInt_ne_zero {n : Int} (h0 : 0 < n) (h1 : n < 2 ^ 32) : cInt n ≠ 0 := by
  intro h
  have hb : n.bmod Int32.size = 0 := by
    rw [← Int32.toInt_ofInt, ← cInt, h]
    rfl
  rw [Int.bmod_def, show Int32.size = 2 ^ 32 from rfl] at hb
  split_ifs at hb <;> omega

/-- `initproc`: the slot `userinit` takes, the first. -/
def initproc : Fin nProc := 0

/-- `pp->parent = initproc` for a child `pp` of `p`. -/
def Proc.adopt (q : Proc) (p : Fin nProc) : Proc :=
  if q.parent = some p then { q with parent := some initproc } else q

namespace Table

def set (t : Table) (i : Fin nProc) (p : Proc) : Table :=
  { t with procs := Function.update t.procs i p }

@[simp] theorem set_procs (t : Table) (i : Fin nProc) (p : Proc) :
    (t.set i p).procs = Function.update t.procs i p := rfl
@[simp] theorem set_nextpid (t : Table) (i : Fin nProc) (p : Proc) :
    (t.set i p).nextpid = t.nextpid := rfl
@[simp] theorem set_exits (t : Table) (i : Fin nProc) (p : Proc) :
    (t.set i p).exits = t.exits := rfl
@[simp] theorem set_reaps (t : Table) (i : Fin nProc) (p : Proc) :
    (t.set i p).reaps = t.reaps := rfl

/-- `wakeup(chan)` called by `me`: every other process sleeping on `chan` becomes runnable. -/
def wakeup (t : Table) (me : Fin nProc) (c : Chan) : Table :=
  let wake (i : Fin nProc) (q : Proc) : Proc :=
    if i ≠ me ∧ q.state = .sleeping ∧ q.chan = some c then { q with state := .runnable } else q
  { t with procs := fun i => wake i (t.procs i) }

/-- `reparent(p)`: each child of `p` goes to `initproc`, which is woken for it.
The loop's wakeups after the first find `initproc` runnable, so one `wakeup`
after the loop does the same. -/
def reparent (t : Table) (p : Fin nProc) : Table :=
  let t' := { t with procs := fun i => (t.procs i).adopt p }
  if ∃ i, (t.procs i).parent = some p then t'.wakeup p (.proc initproc) else t'

/-- `allocproc()`: the first `UNUSED` slot. -/
def allocproc (t : Table) : Option (Fin nProc) :=
  (List.finRange nProc).find? fun i => (t.procs i).state == .unused

/-- `fork()` by `p`. `ok` says whether the child's trapframe, page table and
copy of `p`'s memory could be allocated; when one could not, `freeproc` gives
the slot back with its pid spent. The result is the child's pid as the kernel
holds it. -/
def fork (t : Table) (p : Fin nProc) (ok : Bool) : Int32 × Table :=
  match t.allocproc with
  | none => (-1, t)
  | some c =>
    -- `allocpid()`
    let pid := t.nextpid
    let t := { t with nextpid := pid + 1 }
    if ok then
      -- `np->parent = p; np->state = RUNNABLE`: the slot's other fields are as
      -- `freeproc` or `kill` left them
      (cInt pid, t.set c { t.procs c with pid := pid, parent := some p, state := .runnable })
    else (-1, t.set c Proc.free)

/-- `exit(status)` by `p`. -/
def exit (t : Table) (p : Fin nProc) (status : Int) : Except String Table :=
  if p = initproc then .error "init exiting"
  else
    let t := t.reparent p
    -- the parent might be sleeping in `wait`
    let t := match (t.procs p).parent with
      | some q => t.wakeup p (.proc q)
      | none => t
    .ok { t.set p { t.procs p with xstate := status, state := .zombie } with
      exits := t.exits ++ [((t.procs p).pid, status)] }

/-- `wait(addr)` by `p`: the first zombie child is freed and its pid, as the
kernel holds it, returned; `-1` when `p` has no children or is killed, or when
`copyout` of the status fails (`copyOk`); `none` when `p` goes to sleep in
the loop. -/
def wait (t : Table) (p : Fin nProc) (addr : Nat) (copyOk : Bool) : Option Int32 × Table :=
  match (List.finRange nProc).find? (fun c =>
      (t.procs c).parent == some p && (t.procs c).state == .zombie) with
  | some c =>
    let pp := t.procs c
    if addr ≠ 0 ∧ copyOk = false then (some (-1), t)
    else (some (cInt pp.pid), { t.set c Proc.free with reaps := t.reaps ++ [(pp.pid, pp.xstate)] })
  | none =>
    if (∀ c, (t.procs c).parent ≠ some p) ∨ (t.procs p).killed then (some (-1), t)
    else (none, t.set p { t.procs p with chan := some (.proc p), state := .sleeping })

/-- `kill(pid)`: the first slot whose `int` pid is `pid` is marked killed and woken. -/
def kill (t : Table) (pid : Int32) : Int × Table :=
  match (List.finRange nProc).find? fun i => cInt (t.procs i).pid == pid with
  | some i =>
    let p := t.procs i
    let state := if p.state = .sleeping then .runnable else p.state
    (0, t.set i { p with killed := true, state := state })
  | none => (-1, t)

/-- A call made by `p`, which must be running. -/
def onCpu (t : Table) (p : Fin nProc) (r : Except String Table) : Except String Table :=
  if (t.procs p).state = .running then r else .error "not running"

end Table

/-- The steps of a process. -/
inductive Ev where
  | run
  | yield
  | sleep (a : Nat)
  | wakeup (a : Nat)
  | fork (ok : Bool)
  | exit (status : Int)
  | wait (addr : Nat) (copyOk : Bool)
  | kill (pid : Int32)

/-- One step of process `p`; `wakeup` may come from anywhere, `run` is the
scheduler's pick. -/
def Table.step (t : Table) (e : Fin nProc × Ev) : Except String Table :=
  let p := e.1
  match e.2 with
  | .run =>
    if (t.procs p).state = .runnable then .ok (t.set p { t.procs p with state := .running })
    else .error "not runnable"
  | .wakeup a => .ok (t.wakeup p (.other a))
  | .yield => t.onCpu p (.ok (t.set p { t.procs p with state := .runnable }))
  | .sleep a =>
    t.onCpu p (.ok (t.set p { t.procs p with chan := some (.other a), state := .sleeping }))
  | .fork ok => t.onCpu p (.ok (t.fork p ok).2)
  | .exit status => t.onCpu p (t.exit p status)
  | .wait addr ok => t.onCpu p (.ok (t.wait p addr ok).2)
  | .kill pid => t.onCpu p (.ok (t.kill pid).2)

/-- The table after `userinit`: `initproc` runnable with pid `1`. -/
def boot : Table where
  procs i := if i = initproc then { Proc.free with state := .runnable, pid := 1 } else Proc.free
  nextpid := 2
  exits := []
  reaps := []

/-- Every run of the process table from boot. -/
def procSys : TSys Table (Fin nProc × Ev) where
  init t := t = boot
  step t e t' := t.step e = .ok t'

/-! ## The tree and the record of exits

`TreeInv` says what the process table keeps: `initproc` is a live root, the
parent of every process is live, every process but `initproc` has one, the
parent links have no cycle, the processes' numbers are unique and below
`nextpid`, and a zombie
is a process whose `exit` is recorded and whose reaping is not. Each kind of
step has one lemma: the moves that the tree does not see (`Reshuffled`),
`fork`, `exit` and a `wait` that frees a child. -/

/-- The parent links of the table. -/
def Table.parentOf (t : Table) (c : Fin nProc) : Option (Fin nProc) := (t.procs c).parent

/-- The invariant of the process table. -/
structure TreeInv (t : Table) : Prop where
  init_used : (t.procs initproc).state ≠ .unused
  init_alive : (t.procs initproc).state ≠ .zombie
  init_root : (t.procs initproc).parent = none
  parent_alive : ∀ c q, (t.procs c).parent = some q →
    (t.procs q).state ≠ .unused ∧ (t.procs q).state ≠ .zombie
  has_parent : ∀ c, c ≠ initproc → (t.procs c).state ≠ .unused → (t.procs c).parent ≠ none
  acyclic : Acyclic t.parentOf
  unused_free : ∀ c, (t.procs c).state = .unused → (t.procs c).pid = 0 ∧ (t.procs c).parent = none
  nextpid_pos : 0 < t.nextpid
  pid_range : ∀ c, (t.procs c).state ≠ .unused → 0 < (t.procs c).pid ∧ (t.procs c).pid < t.nextpid
  pid_inj : ∀ c c', (t.procs c).state ≠ .unused → (t.procs c').state ≠ .unused →
    (t.procs c).pid = (t.procs c').pid → c = c'
  exits_lt : ∀ x ∈ t.exits.map Prod.fst, x < t.nextpid
  alive_not_exited : ∀ c, (t.procs c).state ≠ .unused → (t.procs c).state ≠ .zombie →
    (t.procs c).pid ∉ t.exits.map Prod.fst
  zombie_exited : ∀ c, (t.procs c).state = .zombie →
    ((t.procs c).pid, (t.procs c).xstate) ∈ t.exits
  zombie_unreaped : ∀ c, (t.procs c).state = .zombie → (t.procs c).pid ∉ t.reaps.map Prod.fst
  exits_nodup : (t.exits.map Prod.fst).Nodup
  reaps_nodup : (t.reaps.map Prod.fst).Nodup
  reaps_exited : ∀ r ∈ t.reaps, r ∈ t.exits

theorem treeInv_boot : TreeInv boot := by
  have hinit : boot.procs initproc = { Proc.free with state := .runnable, pid := 1 } := rfl
  have hfree : ∀ c, c ≠ initproc → boot.procs c = Proc.free := fun c hc => if_neg hc
  -- every slot but `initproc` is free, and `initproc` is runnable with no parent
  have hroot : ∀ c, (boot.procs c).parent = none := by
    intro c
    by_cases hc : c = initproc
    · rw [hc, hinit]; rfl
    · rw [hfree c hc]; rfl
  have hused : ∀ c, (boot.procs c).state ≠ .unused → c = initproc := by
    intro c hu
    by_contra hc
    exact hu (by rw [hfree c hc]; rfl)
  have hzombie : ∀ c, (boot.procs c).state ≠ .zombie := by
    intro c
    by_cases hc : c = initproc
    · rw [hc, hinit]; simp
    · rw [hfree c hc]; simp [Proc.free]
  refine ⟨by rw [hinit]; simp, hzombie initproc, hroot initproc,
    fun c q hq => by simp [hroot c] at hq, fun c hc hu => absurd (hused c hu) hc, ?_, ?_,
    by decide, ?_, ?_, by simp [boot], ?_, fun c hz => absurd hz (hzombie c),
    fun c hz => absurd hz (hzombie c), by simp [boot], by simp [boot], by simp [boot]⟩
  · intro a ha
    obtain ⟨m, hm⟩ := ha.head
    simp [Table.parentOf, hroot a] at hm
  · intro c hu
    by_cases hc : c = initproc
    · rw [hc, hinit] at hu; cases hu
    · rw [hfree c hc]; exact ⟨rfl, rfl⟩
  · intro c hu
    rw [hused c hu, hinit]
    simp [boot]
  · intro c c' hu hu' _
    rw [hused c hu, hused c' hu']
  · intro c _ _
    simp [boot]

/-- Two records of one slot that agree on what the tree looks at. -/
structure Proc.SameShape (p q : Proc) : Prop where
  pid : q.pid = p.pid
  parent : q.parent = p.parent
  unused : q.state = .unused ↔ p.state = .unused
  zombie : q.state = .zombie ↔ p.state = .zombie
  xstate : p.state = .zombie → q.xstate = p.xstate

theorem Proc.SameShape.refl (p : Proc) : p.SameShape p :=
  ⟨rfl, rfl, Iff.rfl, Iff.rfl, fun _ => rfl⟩

/-- A move between states that are neither `UNUSED` nor `ZOMBIE`, with any
channel and `killed`. -/
theorem Proc.SameShape.of_move {p : Proc} {st : ProcState} {ch : Option Chan} {k : Bool}
    (hp : p.state ≠ .unused ∧ p.state ≠ .zombie) (hst : st ≠ .unused ∧ st ≠ .zombie) :
    p.SameShape { p with state := st, chan := ch, killed := k } :=
  ⟨rfl, rfl, ⟨fun h => absurd h hst.1, fun h => absurd h hp.1⟩,
    ⟨fun h => absurd h hst.2, fun h => absurd h hp.2⟩, fun h => absurd h hp.2⟩

/-- `t'` differs from `t` only where the tree does not look: sleep channels,
`killed`, moves between states that are neither `UNUSED` nor `ZOMBIE`, the
`xstate` of a process that is not a zombie, and a later `nextpid`. -/
structure Table.Reshuffled (t t' : Table) : Prop where
  slot : ∀ c, (t.procs c).SameShape (t'.procs c)
  nextpid : t.nextpid ≤ t'.nextpid
  exits : t'.exits = t.exits
  reaps : t'.reaps = t.reaps

section Steps

variable {t t' : Table}

theorem TreeInv.reshuffle (h : TreeInv t) (hr : t.Reshuffled t') : TreeInv t' where
  init_used := by rw [Ne, (hr.slot _).unused]; exact h.init_used
  init_alive := by rw [Ne, (hr.slot _).zombie]; exact h.init_alive
  init_root := by rw [(hr.slot _).parent]; exact h.init_root
  parent_alive c q hq := by
    rw [(hr.slot c).parent] at hq
    rw [Ne, Ne, (hr.slot q).unused, (hr.slot q).zombie]
    exact h.parent_alive c q hq
  has_parent c hc hu := by
    rw [Ne, (hr.slot c).unused] at hu
    rw [(hr.slot c).parent]
    exact h.has_parent c hc hu
  acyclic := by
    have hpar : t'.parentOf = t.parentOf := funext fun c => (hr.slot c).parent
    rw [hpar]
    exact h.acyclic
  unused_free c hu := by
    rw [(hr.slot c).unused] at hu
    rw [(hr.slot c).pid, (hr.slot c).parent]
    exact h.unused_free c hu
  nextpid_pos := Int.lt_of_lt_of_le h.nextpid_pos hr.nextpid
  pid_range c hu := by
    rw [Ne, (hr.slot c).unused] at hu
    rw [(hr.slot c).pid]
    exact ⟨(h.pid_range c hu).1, Int.lt_of_lt_of_le (h.pid_range c hu).2 hr.nextpid⟩
  pid_inj c c' hu hu' heq := by
    rw [Ne, (hr.slot c).unused] at hu
    rw [Ne, (hr.slot c').unused] at hu'
    rw [(hr.slot c).pid, (hr.slot c').pid] at heq
    exact h.pid_inj c c' hu hu' heq
  exits_lt x hx := by
    rw [hr.exits] at hx
    exact Int.lt_of_lt_of_le (h.exits_lt x hx) hr.nextpid
  alive_not_exited c hu hz := by
    rw [Ne, (hr.slot c).unused] at hu
    rw [Ne, (hr.slot c).zombie] at hz
    rw [(hr.slot c).pid, hr.exits]
    exact h.alive_not_exited c hu hz
  zombie_exited c hz := by
    rw [(hr.slot c).zombie] at hz
    rw [(hr.slot c).pid, (hr.slot c).xstate hz, hr.exits]
    exact h.zombie_exited c hz
  zombie_unreaped c hz := by
    rw [(hr.slot c).zombie] at hz
    rw [(hr.slot c).pid, hr.reaps]
    exact h.zombie_unreaped c hz
  exits_nodup := by rw [hr.exits]; exact h.exits_nodup
  reaps_nodup := by rw [hr.reaps]; exact h.reaps_nodup
  reaps_exited r hr' := by
    rw [hr.reaps] at hr'
    rw [hr.exits]
    exact h.reaps_exited r hr'

/-- Changing one slot in what the tree does not see. -/
theorem Table.reshuffled_set {i : Fin nProc} {q : Proc} (hq : (t.procs i).SameShape q) :
    t.Reshuffled (t.set i q) := by
  refine ⟨fun c => ?_, Int.le_refl _, rfl, rfl⟩
  by_cases hc : c = i
  · subst hc
    simpa using hq
  · simpa [Function.update_of_ne hc] using Proc.SameShape.refl _

theorem Table.reshuffled_wakeup (me : Fin nProc) (ch : Chan) : t.Reshuffled (t.wakeup me ch) := by
  refine ⟨fun c => ?_, Int.le_refl _, rfl, rfl⟩
  show (t.procs c).SameShape
    (if c ≠ me ∧ (t.procs c).state = .sleeping ∧ (t.procs c).chan = some ch then
      { t.procs c with state := .runnable } else t.procs c)
  split_ifs with hwake
  · -- a sleeper becomes runnable
    have hs := hwake.2.1
    exact ⟨rfl, rfl, by simp [hs], by simp [hs], fun h => by simp [hs] at h⟩
  · exact Proc.SameShape.refl _

theorem Table.reshuffled_kill (pid : Int32) : t.Reshuffled (t.kill pid).2 := by
  unfold Table.kill
  split
  · rename_i i _
    refine Table.reshuffled_set ⟨rfl, rfl, ?_, ?_, fun _ => rfl⟩ <;>
    · by_cases hs : (t.procs i).state = .sleeping <;> simp [hs]
  · exact ⟨fun c => Proc.SameShape.refl _, Int.le_refl _, rfl, rfl⟩

/-! ### `fork`: a fresh leaf under the caller -/

theorem Table.allocproc_unused {c : Fin nProc} (h : t.allocproc = some c) :
    (t.procs c).state = .unused := by
  have := List.find?_some h
  simpa using this

theorem TreeInv.fork (h : TreeInv t) {p c : Fin nProc} (hp : (t.procs p).state = .running)
    (hc : (t.procs c).state = .unused) :
    TreeInv ({ t with nextpid := t.nextpid + 1 }.set c
      { t.procs c with pid := t.nextpid, parent := some p, state := .runnable }) := by
  set n := t.nextpid with hn
  set Q : Proc := { t.procs c with pid := n, parent := some p, state := .runnable } with hQ
  set t' := { t with nextpid := n + 1 }.set c Q
  have hP : ∀ i, t'.procs i = if i = c then Q else t.procs i := fun i => Function.update_apply ..
  have hpc : p ≠ c := fun he => by rw [he, hc] at hp; cases hp
  have hic : initproc ≠ c := fun he => h.init_used (he ▸ hc)
  -- nobody points at an unused slot
  have hnone : ∀ a, (t.procs a).parent ≠ some c := fun a ha => (h.parent_alive a c ha).1 hc
  -- the old pids are all below `n`
  have hold : ∀ a, a ≠ c → (t'.procs a).state ≠ .unused → (t.procs a).pid < n := by
    intro a ha hu
    rw [hP, if_neg ha] at hu
    exact (h.pid_range a hu).2
  refine ⟨?init_used, ?init_alive, ?init_root, ?parent_alive, ?has_parent, ?acyclic,
    ?unused_free, ?nextpid_pos, ?pid_range, ?pid_inj, ?exits_lt, ?alive_not_exited,
    ?zombie_exited, ?zombie_unreaped, h.exits_nodup, h.reaps_nodup, h.reaps_exited⟩
  case init_used => rw [hP, if_neg hic]; exact h.init_used
  case init_alive => rw [hP, if_neg hic]; exact h.init_alive
  case init_root => rw [hP, if_neg hic]; exact h.init_root
  case parent_alive =>
    intro a q hq
    rw [hP] at hq
    by_cases ha : a = c
    · -- the child's parent is the caller, which is running
      rw [if_pos ha] at hq
      cases hq
      rw [hP, if_neg hpc, hp]
      simp
    · rw [if_neg ha] at hq
      have hqc : q ≠ c := fun he => hnone a (he ▸ hq)
      rw [hP, if_neg hqc]
      exact h.parent_alive a q hq
  case has_parent =>
    intro a hai hu
    rw [hP] at hu ⊢
    by_cases ha : a = c
    · rw [if_pos ha]; simp [hQ]
    · rw [if_neg ha] at hu ⊢
      exact h.has_parent a hai hu
  case acyclic =>
    refine h.acyclic.addLeaf (c := c) (fun a ha => ?_) (fun a b hab => ?_)
    · simp only [Table.parentOf, hP] at ha
      by_cases hac : a = c
      · rw [if_pos hac] at ha
        exact hpc (Option.some.inj ha)
      · rw [if_neg hac] at ha
        exact hnone a ha
    · simp only [Table.parentOf, hP] at hab
      by_cases hac : a = c
      · exact .inr hac
      · rw [if_neg hac] at hab
        exact .inl hab
  case unused_free =>
    intro a hu
    rw [hP] at hu ⊢
    by_cases ha : a = c
    · rw [if_pos ha] at hu; cases hu
    · rw [if_neg ha] at hu ⊢
      exact h.unused_free a hu
  case nextpid_pos => show 0 < n + 1; have := h.nextpid_pos; omega
  case pid_range =>
    intro a hu
    show 0 < (t'.procs a).pid ∧ (t'.procs a).pid < n + 1
    by_cases ha : a = c
    · rw [hP, if_pos ha]
      have := h.nextpid_pos
      exact ⟨this, by simp only [hQ]; omega⟩
    · have := hold a ha hu
      rw [hP, if_neg ha] at hu ⊢
      exact ⟨(h.pid_range a hu).1, by omega⟩
  case pid_inj =>
    intro a a' hu hu' heq
    by_cases ha : a = c <;> by_cases ha' : a' = c
    · rw [ha, ha']
    · -- the new pid is above every old one
      have := hold a' ha' hu'
      rw [hP, if_pos ha, hP, if_neg ha'] at heq
      simp only [hQ] at heq
      omega
    · have := hold a ha hu
      rw [hP, if_neg ha, hP, if_pos ha'] at heq
      simp only [hQ] at heq
      omega
    · rw [hP, if_neg ha] at hu heq
      rw [hP, if_neg ha'] at hu' heq
      exact h.pid_inj a a' hu hu' heq
  case exits_lt =>
    intro x hx
    show x < n + 1
    have := h.exits_lt x hx
    omega
  case alive_not_exited =>
    intro a hu hz
    by_cases ha : a = c
    · rw [hP, if_pos ha]
      intro hmem
      have := h.exits_lt _ hmem
      simp only [hQ] at this
      omega
    · rw [hP, if_neg ha] at hu hz ⊢
      exact h.alive_not_exited a hu hz
  case zombie_exited =>
    intro a hz
    rw [hP] at hz ⊢
    by_cases ha : a = c
    · rw [if_pos ha] at hz; cases hz
    · rw [if_neg ha] at hz ⊢
      exact h.zombie_exited a hz
  case zombie_unreaped =>
    intro a hz
    rw [hP] at hz ⊢
    by_cases ha : a = c
    · rw [if_pos ha] at hz; cases hz
    · rw [if_neg ha] at hz ⊢
      exact h.zombie_unreaped a hz

/-! ### `exit`: the children go to `initproc`, the caller becomes a zombie -/

/-- `t'` is `t` with the children of `p` handed to `initproc`, and nothing else
that the tree sees changed. -/
structure Table.Adopted (t t' : Table) (p : Fin nProc) : Prop where
  parent : ∀ c, (t'.procs c).parent =
    if (t.procs c).parent = some p then some initproc else (t.procs c).parent
  pid : ∀ c, (t'.procs c).pid = (t.procs c).pid
  unused : ∀ c, (t'.procs c).state = .unused ↔ (t.procs c).state = .unused
  zombie : ∀ c, (t'.procs c).state = .zombie ↔ (t.procs c).state = .zombie
  xstate : ∀ c, (t'.procs c).xstate = (t.procs c).xstate
  nextpid : t'.nextpid = t.nextpid
  exits : t'.exits = t.exits
  reaps : t'.reaps = t.reaps

theorem Table.Adopted.wakeup {p : Fin nProc} (h : t.Adopted t' p) (me : Fin nProc) (ch : Chan) :
    t.Adopted (t'.wakeup me ch) p := by
  have hw := fun c => (Table.reshuffled_wakeup (t := t') me ch).slot c
  refine ⟨fun c => ?_, fun c => ?_, fun c => ?_, fun c => ?_, fun c => ?_, h.nextpid, h.exits,
    h.reaps⟩
  · rw [(hw c).parent, h.parent]
  · rw [(hw c).pid, h.pid]
  · rw [(hw c).unused, h.unused]
  · rw [(hw c).zombie, h.zombie]
  · -- `wakeup` only moves sleepers, whose `xstate` it leaves
    show (if c ≠ me ∧ (t'.procs c).state = .sleeping ∧ (t'.procs c).chan = some ch then
      { t'.procs c with state := .runnable } else t'.procs c).xstate = _
    split_ifs <;> exact h.xstate c

theorem Table.adopted_reparent (p : Fin nProc) : t.Adopted (t.reparent p) p := by
  -- the relinking loop on its own
  have hlink : t.Adopted { t with procs := fun i => (t.procs i).adopt p } p := by
    refine ⟨fun c => ?_, fun c => ?_, fun c => ?_, fun c => ?_, fun c => ?_, rfl, rfl, rfl⟩ <;>
    · by_cases hc : (t.procs c).parent = some p <;> simp [Proc.adopt, hc]
  unfold Table.reparent
  split_ifs
  · exact hlink.wakeup p (.proc initproc)
  · exact hlink

theorem Table.exit_spec {p : Fin nProc} {status : Int} (h : t.exit p status = .ok t') :
    p ≠ initproc ∧ ∃ t₂, t.Adopted t₂ p ∧
      t' = { t₂.set p { t₂.procs p with xstate := status, state := .zombie } with
        exits := t₂.exits ++ [((t₂.procs p).pid, status)] } := by
  unfold Table.exit at h
  split_ifs at h with hinit
  cases h
  refine ⟨hinit, _, ?_, rfl⟩
  split
  · exact (Table.adopted_reparent p).wakeup p _
  · exact Table.adopted_reparent p

theorem TreeInv.exit (h : TreeInv t) {p : Fin nProc} {status : Int}
    (hp : (t.procs p).state = .running) (hpi : p ≠ initproc) {t₂ : Table}
    (ha : t.Adopted t₂ p) :
    TreeInv { t₂.set p { t₂.procs p with xstate := status, state := .zombie } with
      exits := t₂.exits ++ [((t₂.procs p).pid, status)] } := by
  set t' := { t₂.set p { t₂.procs p with xstate := status, state := .zombie } with
    exits := t₂.exits ++ [((t₂.procs p).pid, status)] }
  -- what the final table says, in terms of `t`
  have hP : ∀ i, t'.procs i =
      if i = p then { t₂.procs p with xstate := status, state := .zombie } else t₂.procs i :=
    fun i => Function.update_apply ..
  have hparent : ∀ i, (t'.procs i).parent =
      if (t.procs i).parent = some p then some initproc else (t.procs i).parent := by
    intro i
    rw [hP, ← ha.parent]
    split_ifs with hi
    · rw [hi]
    · rfl
  have hpid : ∀ i, (t'.procs i).pid = (t.procs i).pid := by
    intro i
    rw [hP, ← ha.pid]
    split_ifs with hi
    · rw [hi]
    · rfl
  have hother : ∀ i, i ≠ p → t'.procs i = t₂.procs i := fun i hi => by rw [hP, if_neg hi]
  have hzp : (t'.procs p).state = .zombie := by rw [hP, if_pos rfl]
  have hxp : (t'.procs p).xstate = status := by rw [hP, if_pos rfl]
  have hexits : t'.exits = t.exits ++ [((t.procs p).pid, status)] := by
    show t₂.exits ++ _ = _
    rw [ha.exits, ha.pid]
  have hpu : (t.procs p).state ≠ .unused := by rw [hp]; simp
  have hpz : (t.procs p).state ≠ .zombie := by rw [hp]; simp
  -- a process but the caller keeps its state's kind; the caller was neither unused nor a zombie
  have hunused : ∀ i, (t'.procs i).state = .unused → (t.procs i).state = .unused := by
    intro i hu
    by_cases hi : i = p
    · rw [hi, hzp] at hu; cases hu
    · rw [hother i hi, ha.unused] at hu; exact hu
  have hpnot : (t.procs p).pid ∉ t.exits.map Prod.fst := h.alive_not_exited p hpu hpz
  have hinit : (t.procs initproc).parent ≠ some p := by rw [h.init_root]; simp
  refine ⟨?init_used, ?init_alive, ?init_root, ?parent_alive, ?has_parent, ?acyclic,
    ?unused_free, ?nextpid_pos, ?pid_range, ?pid_inj, ?exits_lt, ?alive_not_exited,
    ?zombie_exited, ?zombie_unreaped, ?exits_nodup, ?reaps_nodup, ?reaps_exited⟩
  case init_used => exact fun hu => h.init_used (hunused _ hu)
  case init_alive =>
    rw [hother _ (Ne.symm hpi), Ne, ha.zombie]
    exact h.init_alive
  case init_root => rw [hparent, if_neg hinit, h.init_root]
  case parent_alive =>
    intro a q hq
    rw [hparent] at hq
    split_ifs at hq with hpa
    · -- a child of the caller, now a child of `initproc`
      cases hq
      exact ⟨fun hu => h.init_used (hunused _ hu),
        by rw [hother _ (Ne.symm hpi), Ne, ha.zombie]; exact h.init_alive⟩
    · have hqp : q ≠ p := fun he => hpa (he ▸ hq)
      rw [hother q hqp, Ne, Ne, ha.unused, ha.zombie]
      exact h.parent_alive a q hq
  case has_parent =>
    intro a hai hu
    rw [hparent]
    split_ifs
    · simp
    · exact h.has_parent a hai (fun hu' => hu (by
        by_cases hi : a = p
        · exact absurd (hi ▸ hu') hpu
        · rw [hother a hi, ha.unused]; exact hu'))
  case acyclic =>
    refine h.acyclic.redirect (r := initproc) ?_ (fun a b hab => ?_)
    · show (t'.procs initproc).parent = none
      rw [hparent, if_neg hinit, h.init_root]
    · simp only [Table.parentOf, hparent] at hab
      split_ifs at hab
      · exact .inr (Option.some.inj hab).symm
      · exact .inl hab
  case unused_free =>
    intro a hu
    have hu₀ := hunused a hu
    obtain ⟨hpid₀, hpar₀⟩ := h.unused_free a hu₀
    rw [hpid, hparent, hpar₀, hpid₀]
    simp
  case nextpid_pos => rw [show t'.nextpid = t.nextpid from ha.nextpid]; exact h.nextpid_pos
  case pid_range =>
    intro a hu
    rw [hpid, show t'.nextpid = t.nextpid from ha.nextpid]
    exact h.pid_range a (fun hu' => hu (by
      by_cases hi : a = p
      · exact absurd (hi ▸ hu') hpu
      · rw [hother a hi, ha.unused]; exact hu'))
  case pid_inj =>
    -- states that are not unused were not unused before
    have hback : ∀ i, (t'.procs i).state ≠ .unused → (t.procs i).state ≠ .unused :=
      fun i hu hu₀ => by
        by_cases hi : i = p
        · exact hpu (hi ▸ hu₀)
        · exact hu (by rw [hother i hi, ha.unused]; exact hu₀)
    intro a a' hu hu' heq
    rw [hpid, hpid] at heq
    exact h.pid_inj a a' (hback a hu) (hback a' hu') heq
  case exits_lt =>
    intro x hx
    rw [show t'.nextpid = t.nextpid from ha.nextpid]
    rw [hexits, List.map_append, List.mem_append] at hx
    rcases hx with hx | hx
    · exact h.exits_lt x hx
    · simp only [List.map_cons, List.map_nil, List.mem_singleton] at hx
      rw [hx]
      exact (h.pid_range p hpu).2
  case alive_not_exited =>
    intro a hu hz
    have hap : a ≠ p := fun he => hz (he ▸ hzp)
    rw [hother a hap, Ne, ha.unused] at hu
    rw [hother a hap, Ne, ha.zombie] at hz
    rw [hpid, hexits, List.map_append, List.mem_append]
    rintro (hmem | hmem)
    · exact h.alive_not_exited a hu hz hmem
    · simp only [List.map_cons, List.map_nil, List.mem_singleton] at hmem
      exact hap (h.pid_inj a p hu hpu hmem)
  case zombie_exited =>
    intro a hz
    rw [hpid, hexits]
    by_cases hap : a = p
    · subst hap
      rw [hxp]
      simp
    · rw [hother a hap, ha.zombie] at hz
      rw [hother a hap, ha.xstate]
      exact List.mem_append_left _ (h.zombie_exited a hz)
  case zombie_unreaped =>
    intro a hz
    rw [hpid, show t'.reaps = t.reaps from ha.reaps]
    by_cases hap : a = p
    · -- the caller is not reaped: every reap was an exit, and the caller had not exited
      subst hap
      intro hmem
      obtain ⟨r, hr, hr1⟩ := List.mem_map.mp hmem
      exact hpnot (List.mem_map.mpr ⟨r, h.reaps_exited r hr, hr1⟩)
    · rw [hother a hap, ha.zombie] at hz
      exact h.zombie_unreaped a hz
  case exits_nodup =>
    rw [hexits, List.map_append, List.nodup_append]
    refine ⟨h.exits_nodup, by simp, fun a ha b hb hab => ?_⟩
    simp only [List.map_cons, List.map_nil, List.mem_singleton] at hb
    rw [hab, hb] at ha
    exact hpnot ha
  case reaps_nodup => rw [show t'.reaps = t.reaps from ha.reaps]; exact h.reaps_nodup
  case reaps_exited =>
    intro r hr
    rw [show t'.reaps = t.reaps from ha.reaps] at hr
    rw [hexits]
    exact List.mem_append_left _ (h.reaps_exited r hr)

/-! ### `wait`: a zombie child freed -/

theorem TreeInv.reap (h : TreeInv t) {c : Fin nProc} (hcz : (t.procs c).state = .zombie) :
    TreeInv { t.set c Proc.free with
      reaps := t.reaps ++ [((t.procs c).pid, (t.procs c).xstate)] } := by
  set t' := { t.set c Proc.free with
    reaps := t.reaps ++ [((t.procs c).pid, (t.procs c).xstate)] }
  have hP : ∀ i, t'.procs i = if i = c then Proc.free else t.procs i :=
    fun i => Function.update_apply ..
  have hother : ∀ i, i ≠ c → t'.procs i = t.procs i := fun i hi => by rw [hP, if_neg hi]
  have hcu : (t'.procs c).state = .unused := by rw [hP, if_pos rfl]; rfl
  have hic : initproc ≠ c := fun he => h.init_alive (he ▸ hcz)
  -- a zombie has no children: `exit` gave them away
  have hnone : ∀ a, (t.procs a).parent ≠ some c := fun a ha => (h.parent_alive a c ha).2 hcz
  have hcu₀ : (t.procs c).state ≠ .unused := by rw [hcz]; simp
  refine ⟨?init_used, ?init_alive, ?init_root, ?parent_alive, ?has_parent, ?acyclic,
    ?unused_free, h.nextpid_pos, ?pid_range, ?pid_inj, h.exits_lt, ?alive_not_exited,
    ?zombie_exited, ?zombie_unreaped, h.exits_nodup, ?reaps_nodup, ?reaps_exited⟩
  case init_used => rw [hother _ hic]; exact h.init_used
  case init_alive => rw [hother _ hic]; exact h.init_alive
  case init_root => rw [hother _ hic]; exact h.init_root
  case parent_alive =>
    intro a q hq
    by_cases hac : a = c
    · rw [hac, hP, if_pos rfl] at hq; cases hq
    · rw [hother a hac] at hq
      have hqc : q ≠ c := fun he => hnone a (he ▸ hq)
      rw [hother q hqc]
      exact h.parent_alive a q hq
  case has_parent =>
    intro a hai hu
    by_cases hac : a = c
    · exact absurd (hac ▸ hcu) hu
    · rw [hother a hac] at hu ⊢
      exact h.has_parent a hai hu
  case acyclic =>
    refine h.acyclic.of_sub fun a b hab => ?_
    simp only [Table.parentOf] at hab ⊢
    by_cases hac : a = c
    · rw [hac, hP, if_pos rfl] at hab; cases hab
    · rwa [hother a hac] at hab
  case unused_free =>
    intro a hu
    by_cases hac : a = c
    · rw [hac, hP, if_pos rfl]; exact ⟨rfl, rfl⟩
    · rw [hother a hac] at hu ⊢
      exact h.unused_free a hu
  case pid_range =>
    intro a hu
    by_cases hac : a = c
    · exact absurd (hac ▸ hcu) hu
    · rw [hother a hac] at hu ⊢
      exact h.pid_range a hu
  case pid_inj =>
    intro a a' hu hu' heq
    have hac : a ≠ c := fun he => hu (he ▸ hcu)
    have hac' : a' ≠ c := fun he => hu' (he ▸ hcu)
    rw [hother a hac] at hu heq
    rw [hother a' hac'] at hu' heq
    exact h.pid_inj a a' hu hu' heq
  case alive_not_exited =>
    intro a hu hz
    have hac : a ≠ c := fun he => hu (he ▸ hcu)
    rw [hother a hac] at hu hz ⊢
    exact h.alive_not_exited a hu hz
  case zombie_exited =>
    intro a hz
    have hac : a ≠ c := fun he => by rw [he, hcu] at hz; cases hz
    rw [hother a hac] at hz ⊢
    exact h.zombie_exited a hz
  case zombie_unreaped =>
    intro a hz
    have hac : a ≠ c := fun he => by rw [he, hcu] at hz; cases hz
    rw [hother a hac] at hz ⊢
    show (t.procs a).pid ∉ (t.reaps ++ _).map Prod.fst
    rw [List.map_append, List.mem_append]
    rintro (hmem | hmem)
    · exact h.zombie_unreaped a hz hmem
    · -- two zombies never share a pid
      simp only [List.map_cons, List.map_nil, List.mem_singleton] at hmem
      have hau : (t.procs a).state ≠ .unused := by rw [hz]; simp
      exact hac (h.pid_inj a c hau hcu₀ hmem)
  case reaps_nodup =>
    show ((t.reaps ++ _).map Prod.fst).Nodup
    rw [List.map_append, List.nodup_append]
    refine ⟨h.reaps_nodup, by simp, fun a ha b hb hab => ?_⟩
    simp only [List.map_cons, List.map_nil, List.mem_singleton] at hb
    rw [hab, hb] at ha
    exact h.zombie_unreaped c hcz ha
  case reaps_exited =>
    intro r hr
    rcases List.mem_append.mp hr with hr | hr
    · exact h.reaps_exited r hr
    · rw [List.mem_singleton.mp hr]
      exact h.zombie_exited c hcz

/-- What a `wait` can do: return `-1` and change nothing, free a zombie child,
or put the caller to sleep on itself. -/
theorem Table.wait_cases {p : Fin nProc} {addr : Nat} {ok : Bool} {r : Option Int32}
    (h : t.wait p addr ok = (r, t')) :
    (r = some (-1) ∧ t' = t) ∨
    (∃ c, (t.procs c).parent = some p ∧ (t.procs c).state = .zombie ∧
      r = some (cInt (t.procs c).pid) ∧
      t' = { t.set c Proc.free with reaps := t.reaps ++ [((t.procs c).pid, (t.procs c).xstate)] }) ∨
    (r = none ∧ t' = t.set p { t.procs p with chan := some (.proc p), state := .sleeping }) := by
  unfold Table.wait at h
  split at h
  · rename_i c hfind
    have hc := List.find?_some hfind
    simp only [Bool.and_eq_true, beq_iff_eq] at hc
    split_ifs at h
    · cases h
      exact .inl ⟨rfl, rfl⟩
    · cases h
      exact .inr (.inl ⟨c, hc.1, hc.2, rfl, rfl⟩)
  · split_ifs at h
    · cases h
      exact .inl ⟨rfl, rfl⟩
    · cases h
      exact .inr (.inr ⟨rfl, rfl⟩)

/-- A move of the running process `p` to another state that is neither
`UNUSED` nor `ZOMBIE`. -/
theorem TreeInv.move (h : TreeInv t) {p : Fin nProc} (hp : (t.procs p).state = .running)
    {st : ProcState} (hst : st ≠ .unused ∧ st ≠ .zombie) (ch : Option Chan) :
    TreeInv (t.set p { t.procs p with state := st, chan := ch }) :=
  h.reshuffle (Table.reshuffled_set (Proc.SameShape.of_move (k := (t.procs p).killed)
    (by rw [hp]; simp) hst))

/-- The step lemma: every step keeps the invariant. -/
theorem TreeInv.step (h : TreeInv t) {e : Fin nProc × Ev} (hs : t.step e = .ok t') :
    TreeInv t' := by
  obtain ⟨p, ev⟩ := e
  cases ev with
  | run =>
    simp only [Table.step] at hs
    split_ifs at hs with hrun
    cases hs
    exact h.reshuffle (Table.reshuffled_set
      (@Proc.SameShape.of_move _ _ (t.procs p).chan (t.procs p).killed (by rw [hrun]; simp) (by simp)))
  | wakeup a =>
    simp only [Table.step, Except.ok.injEq] at hs
    subst hs
    exact h.reshuffle (Table.reshuffled_wakeup _ _)
  | yield =>
    simp only [Table.step, Table.onCpu] at hs
    split_ifs at hs with hrun
    cases hs
    exact h.move hrun (by simp) (t.procs p).chan
  | sleep a =>
    simp only [Table.step, Table.onCpu] at hs
    split_ifs at hs with hrun
    cases hs
    exact h.move hrun (by simp) (some (.other a))
  | fork ok =>
    simp only [Table.step, Table.onCpu] at hs
    split_ifs at hs with hrun
    cases hs
    unfold Table.fork
    split
    · exact h
    · rename_i c hc
      have hcu := Table.allocproc_unused hc
      split_ifs
      · exact h.fork hrun hcu
      · -- a failed `fork` spends a pid and leaves the slot free
        obtain ⟨hpid, hpar⟩ := h.unused_free c hcu
        refine h.reshuffle ⟨fun i => ?_, by simp only [Table.set_nextpid]; omega, rfl, rfl⟩
        by_cases hic : i = c
        · subst hic
          simp only [Table.set_procs, Function.update_self]
          exact ⟨hpid.symm, hpar.symm, by simp [hcu, Proc.free], by simp [hcu, Proc.free],
            fun hz => by rw [hcu] at hz; cases hz⟩
        · simp only [Table.set_procs, Function.update_of_ne hic]
          exact Proc.SameShape.refl _
  | exit status =>
    simp only [Table.step, Table.onCpu] at hs
    split_ifs at hs with hrun
    obtain ⟨hpi, t₂, ha, rfl⟩ := Table.exit_spec hs
    exact h.exit hrun hpi ha
  | wait addr ok =>
    simp only [Table.step, Table.onCpu] at hs
    split_ifs at hs with hrun
    cases hs
    have hw : t.wait p addr ok = ((t.wait p addr ok).1, (t.wait p addr ok).2) := rfl
    rcases Table.wait_cases hw with
      ⟨-, heq⟩ | ⟨c, -, hcz, -, heq⟩ | ⟨-, heq⟩
    · rw [heq]; exact h
    · rw [heq]; exact h.reap hcz
    · rw [heq]; exact h.move hrun (by simp) _
  | kill pid =>
    simp only [Table.step, Table.onCpu] at hs
    split_ifs at hs with hrun
    cases hs
    exact h.reshuffle (Table.reshuffled_kill pid)

end Steps

/-- The run lemma: the invariant holds in every reachable table. -/
theorem treeInv_invariant : procSys.Invariant TreeInv :=
  TSys.Invariant.of_inductive (fun _ ht => ht ▸ treeInv_boot) fun _ _ _ h hs => h.step hs

/-- In every reachable table each process other than `initproc` that is
sleeping, runnable, running or a zombie has a parent that is neither unused nor
a zombie, and no process is its own ancestor; no process is reaped twice, every
reap is of an exit, and no process exits twice. A `wait` either returns `-1`
and changes nothing, or frees a zombie child whose `int` pid it returns, that
has exited and was not reaped before, and records the status that child passed
to `exit`. -/
theorem process_tree :
    procSys.Invariant fun t =>
      (∀ c, c ≠ initproc →
        ((t.procs c).state = .sleeping ∨ (t.procs c).state = .runnable ∨
          (t.procs c).state = .running ∨ (t.procs c).state = .zombie) →
        ∃ q, (t.procs c).parent = some q ∧
          (t.procs q).state ≠ .unused ∧ (t.procs q).state ≠ .zombie) ∧
      Acyclic t.parentOf ∧
      (t.reaps.map Prod.fst).Nodup ∧ (∀ r ∈ t.reaps, r ∈ t.exits) ∧
      (t.exits.map Prod.fst).Nodup ∧
      ∀ p addr ok x t', t.wait p addr ok = (some x, t') → (x = -1 ∧ t' = t) ∨
        ∃ c, (t.procs c).parent = some p ∧ (t.procs c).state = .zombie ∧
          cInt (t.procs c).pid = x ∧ ((t.procs c).pid, (t.procs c).xstate) ∈ t.exits ∧
          (t.procs c).pid ∉ t.reaps.map Prod.fst ∧ t'.procs c = Proc.free ∧
          t'.reaps = t.reaps ++ [((t.procs c).pid, (t.procs c).xstate)] := by
  refine treeInv_invariant.mono fun t h => ⟨fun c hc hlive => ?_, h.acyclic, h.reaps_nodup,
    h.reaps_exited, h.exits_nodup, fun p addr ok x t' hw => ?_⟩
  · -- a live process has a parent, and parents are alive
    have hu : (t.procs c).state ≠ .unused := by
      rcases hlive with hs | hs | hs | hs <;> rw [hs] <;> simp
    obtain ⟨q, hq⟩ := Option.ne_none_iff_exists'.mp (h.has_parent c hc hu)
    exact ⟨q, hq, h.parent_alive c q hq⟩
  · -- a `wait` that returns frees a child or changes nothing
    rcases Table.wait_cases hw with ⟨hr, ht⟩ | ⟨c, hcp, hcz, hr, rfl⟩ | ⟨hr, -⟩
    · exact .inl ⟨Option.some.inj hr, ht⟩
    · obtain rfl := Option.some.inj hr
      refine .inr ⟨c, hcp, hcz, rfl, h.zombie_exited c hcz, h.zombie_unreaped c hcz, ?_, rfl⟩
      simp
    · cases hr

/-! ## `kill(0)`

Until the count passes `2^32`, only an unused slot holds pid `0`: `freeproc`
writes it and `allocpid` does not return it. So `kill(0)` finds the first
unused slot, marks it killed and returns `0`; `allocproc` clears neither `killed` nor anything else the mark
sits in, and the next `fork` gives that slot, still marked, to its child. -/

/-- In a table of the invariant whose count has not passed `2^32`, `kill(0)`
marks the slot `allocproc` would take. -/
theorem kill_zero_of_free {t : Table} (h : TreeInv t) (hn : t.nextpid ≤ 2 ^ 32) {c : Fin nProc}
    (hc : t.allocproc = some c) :
    t.kill 0 = (0, t.set c { t.procs c with killed := true }) := by
  -- pid `0` is exactly the unused slots
  have hpid : (fun i => cInt (t.procs i).pid == 0) = fun i => (t.procs i).state == .unused := by
    funext i
    by_cases hu : (t.procs i).state = .unused
    · simp [hu, (h.unused_free i hu).1, cInt]
    · have hne : cInt (t.procs i).pid ≠ 0 :=
        cInt_ne_zero (h.pid_range i hu).1 (by have := (h.pid_range i hu).2; omega)
      rw [beq_false_of_ne hne, beq_false_of_ne hu]
  have hfind : (List.finRange nProc).find? (fun i => cInt (t.procs i).pid == 0) = some c := by
    rw [hpid]
    exact hc
  have hcu := Table.allocproc_unused hc
  unfold Table.kill
  rw [hfind]
  simp [hcu]

/-- Marking a slot killed leaves `allocproc`'s choice as it was. -/
theorem Table.allocproc_set_killed {t : Table} {c : Fin nProc} :
    (t.set c { t.procs c with killed := true }).allocproc = t.allocproc := by
  unfold Table.allocproc
  congr 1
  funext i
  by_cases hi : i = c
  · subst hi
    simp
  · simp [Function.update_of_ne hi]

/-- The table after `initproc` is first scheduled. -/
def bootRunning : Table := boot.set initproc { boot.procs initproc with state := .running }

/-- `initproc` calls `kill(0)`: it returns `0` and marks the unused slot `1`;
then `fork` gives slot `1`, still marked, to a runnable child. -/
theorem kill_zero_prekills_child :
    ∃ t t' t'', procSys.Reachable t ∧ procSys.step t (initproc, .kill 0) t' ∧
      (t.kill 0).1 = 0 ∧ (t'.procs 1).state = .unused ∧ (t'.procs 1).killed = true ∧
      procSys.step t' (initproc, .fork true) t'' ∧
      (t''.procs 1).state = .runnable ∧ (t''.procs 1).killed = true ∧
      (t''.procs 1).parent = some initproc := by
  have hreach : procSys.Reachable bootRunning :=
    .step (.init rfl) (show boot.step (initproc, .run) = .ok bootRunning from rfl)
  have hinv := treeInv_invariant _ hreach
  have halloc : bootRunning.allocproc = some 1 := by decide
  have hkill := kill_zero_of_free hinv (by decide) halloc
  set t' := bootRunning.set 1 { bootRunning.procs 1 with killed := true }
  have halloc' : t'.allocproc = some 1 := by rw [Table.allocproc_set_killed, halloc]
  have hrun : (bootRunning.procs initproc).state = .running := rfl
  have hrun' : (t'.procs initproc).state = .running := rfl
  refine ⟨bootRunning, t', (t'.fork initproc true).2, hreach, ?_, by rw [hkill], rfl,
    by simp [t'], ?_, ?_, ?_, ?_⟩
  · show bootRunning.step (initproc, .kill 0) = .ok t'
    simp only [Table.step, Table.onCpu, hrun, if_true, hkill]
  · show t'.step (initproc, .fork true) = .ok (t'.fork initproc true).2
    simp only [Table.step, Table.onCpu, hrun', if_true]
  all_goals simp [Table.fork, halloc', t']

end Xv6.Kernel.ProcTable
