import Xv6.Kernel.Param
import Xv6.Lib.Reach
import Xv6.Lib.Count

/-!
# Spinlocks (`kernel/spinlock.c`)

A spinlock is the word `locked`, taken by an atomic swap in `acquire`'s loop
and cleared by `release`, with the holder's CPU in `cpu` for `holding`.
`acquire` first turns interrupts off with `push_off`, and `release` ends with
`pop_off`; the two nest per CPU, `noff` counting the calls not yet undone and
`intena` keeping the interrupt state from before the outermost one.

The model runs any number of CPUs on any set of locks. Each CPU is at one
place in `acquire` (`LockAt`), and the steps that read or write a lock are
separate events, so that the other CPUs' steps come between them: the call up
to the loop (`push_off` and the `holding` check), each swap of the loop, and
the store of `lk->cpu`. `release`'s two stores and its `pop_off` are one
step: only the releasing CPU reads `lk->cpu` as itself, and `pop_off` touches
its own CPU alone. The callers of the kernel keep to three rules, which are
guards here: a CPU undoes with `pop_off` only a `push_off` of its own, calls
`intr_on` only outside every lock (the scheduler and `usertrap` do), and
takes no other step in the middle of `acquire`. Ghost fields record the locks
each CPU acquired and the `push_off` calls it made on its own.

* `spinlock_mutual_exclusion`: in every reachable state, at most one CPU has
  acquired a lock, and `holding(lk)` on a CPU answers whether it has.
* `spinlock_intr_off`: a CPU that holds a lock or is in `acquire` has its
  interrupts off, so no interrupt handler can spin on a lock its own CPU holds.
* `spinlock_panics`: the only panics are `acquire` of a lock the CPU holds and
  `release` of one it does not; `pop_off`'s never fire.
-/

namespace Xv6.Kernel

open Xv6.Lib

/-- Where a CPU is in `acquire`. -/
inductive LockAt (L : Type)
  /-- in no `acquire` -/
  | idle
  /-- in `acquire(l)`'s loop of atomic swaps, after `push_off` and the `holding` check -/
  | spin (l : L)
  /-- in `acquire(l)`, the swap having found the lock free, before `lk->cpu = mycpu()` -/
  | claimed (l : L)
  deriving DecidableEq

/-- The `push_off` that `acquire` made and `release` has not undone yet. -/
def LockAt.pushes {L : Type} : LockAt L → Nat
  | .idle => 0
  | _ => 1

theorem LockAt.pushes_eq_zero {L : Type} {p : LockAt L} : p.pushes = 0 ↔ p = .idle := by
  cases p <;> simp [pushes]

/-- A CPU: the fields `noff` and `intena` of `struct cpu`, the `SIE` bit of
its `sstatus`, where it is in `acquire`, and two ghost fields: the locks it
acquired and has not released, and the `push_off` calls of its own that no
`pop_off` has undone. -/
structure Cpu (L : Type) where
  noff : Nat
  intena : Bool
  sie : Bool
  place : LockAt L
  held : List L
  bare : Nat

/-- `struct spinlock`: `locked`, and the holder `cpu` (a null pointer is `none`). -/
structure Spinlock (C : Type) where
  locked : Bool
  cpu : Option C

/-- The CPUs and the locks. -/
structure Spin (C L : Type) where
  cpus : C → Cpu L
  locks : L → Spinlock C

/-- The calls to the lock code, each a step of one CPU. -/
inductive SpinEv (C L : Type)
  /-- `acquire(l)` up to its loop -/
  | acquire (c : C) (l : L)
  /-- one swap of `acquire`'s loop -/
  | swap (c : C)
  /-- `lk->cpu = mycpu()` at the end of `acquire` -/
  | record (c : C)
  | release (c : C) (l : L)
  /-- a `push_off` of the CPU's own, as in `mycpu` or `uartputc_sync` -/
  | pushOff (c : C)
  /-- the `pop_off` that undoes one -/
  | popOff (c : C)
  | intrOn (c : C)
  | intrOff (c : C)

variable {C L : Type}

/-- `initlock(lk, name)`: `locked = 0`, `cpu = 0`. -/
def initlock : Spinlock C := ⟨false, none⟩

namespace Cpu

/-- `cpus[]` at boot: zeroed, with interrupts off. -/
def init : Cpu L := ⟨0, false, false, .idle, [], 0⟩

/-- `push_off()`: `intr_off()`, with the interrupt state kept by the outermost call. -/
def pushOff (x : Cpu L) : Cpu L :=
  let old := x.sie
  let x := { x with sie := false }
  let x := if x.noff = 0 then { x with intena := old } else x
  { x with noff := x.noff + 1 }

/-- `pop_off()`: the outermost call turns interrupts back on if they were. -/
def popOff (x : Cpu L) : Except String (Cpu L) :=
  if x.sie then .error "pop_off - interruptible"
  else if x.noff < 1 then .error "pop_off"
  else
    let x := { x with noff := x.noff - 1 }
    .ok (if x.noff = 0 && x.intena then { x with sie := true } else x)

@[simp] theorem pushOff_noff (x : Cpu L) : x.pushOff.noff = x.noff + 1 := by
  unfold pushOff
  dsimp only
  split <;> rfl

@[simp] theorem pushOff_sie (x : Cpu L) : x.pushOff.sie = false := by
  unfold pushOff
  dsimp only
  split <;> rfl

@[simp] theorem pushOff_place (x : Cpu L) : x.pushOff.place = x.place := by
  unfold pushOff
  dsimp only
  split <;> rfl

@[simp] theorem pushOff_held (x : Cpu L) : x.pushOff.held = x.held := by
  unfold pushOff
  dsimp only
  split <;> rfl

@[simp] theorem pushOff_bare (x : Cpu L) : x.pushOff.bare = x.bare := by
  unfold pushOff
  dsimp only
  split <;> rfl

/-- `pop_off` with interrupts off and a call to undo: it returns, one call
fewer, with interrupts still off unless it undid the outermost call. -/
theorem popOff_spec {x : Cpu L} (hs : x.sie = false) (hn : 0 < x.noff) :
    ∃ y, x.popOff = .ok y ∧ y.noff + 1 = x.noff ∧ (0 < y.noff → y.sie = false) ∧
      y.place = x.place ∧ y.held = x.held ∧ y.bare = x.bare := by
  have hlt : ¬x.noff < 1 := by omega
  unfold popOff
  rw [hs, if_neg (by decide), if_neg hlt]
  refine ⟨_, rfl, ?_⟩
  split
  · -- the outermost call: `noff` is back to `0`
    rename_i h
    simp only [Bool.and_eq_true, decide_eq_true_eq] at h
    dsimp only at h ⊢
    exact ⟨by omega, fun hpos => absurd h.1 (by omega), rfl, rfl, rfl⟩
  · dsimp only
    exact ⟨by omega, fun _ => rfl, rfl, rfl, rfl⟩

/-- `pop_off` panics only with interrupts on or no call to undo. -/
theorem popOff_error {x : Cpu L} {e : String} (h : x.popOff = .error e) :
    x.sie = true ∨ x.noff = 0 := by
  unfold popOff at h
  split_ifs at h with hs hn
  · exact .inl hs
  · exact .inr (by omega)

/-- What each CPU keeps: `noff` counts the `push_off` calls not undone, one
for each lock it holds or is acquiring and one for each of its own, and
interrupts stay off while any is. -/
structure CpuInv (x : Cpu L) : Prop where
  depth : x.noff = x.held.length + x.place.pushes + x.bare
  intr : 0 < x.noff → x.sie = false

theorem CpuInv.init : CpuInv (Cpu.init : Cpu L) :=
  ⟨rfl, fun h => absurd h (Nat.lt_irrefl 0)⟩

/-- A `pop_off` that undoes one of the calls `noff` counts keeps the invariant. -/
theorem CpuInv.popOff {x y : Cpu L} (hx : x.sie = false) (hdepth : x.noff = x.held.length +
    x.place.pushes + x.bare + 1) (h : x.popOff = .ok y) : CpuInv y ∧ y.held = x.held ∧
      y.place = x.place := by
  obtain ⟨y', hy', hn, hs, hp, hh, hb⟩ := popOff_spec hx (by omega)
  rw [hy'] at h
  cases h
  exact ⟨⟨by rw [hp, hh, hb]; omega, hs⟩, hh, hp⟩

variable [DecidableEq L]

/-- How often the CPU has taken lock `l`: acquired and not released, or
claimed by its swap in `acquire`. -/
def claims (x : Cpu L) (l : L) : Nat :=
  x.held.count l + if x.place = .claimed l then 1 else 0

theorem claims_congr {x y : Cpu L} (hh : y.held = x.held) (hp : y.place = x.place) :
    y.claims = x.claims := by
  funext l
  simp only [claims, hh, hp]

/-- A CPU out of `acquire` has taken exactly the locks it holds. -/
theorem claims_of_not_claimed {x : Cpu L} {l : L} (h : ∀ m, x.place ≠ .claimed m) :
    x.claims l = x.held.count l := by
  simp [claims, h]

theorem claims_pos_of_held {x : Cpu L} {l : L} (h : l ∈ x.held) : 0 < x.claims l := by
  have := List.count_pos_iff.mpr h
  unfold claims
  omega

end Cpu

namespace Spin

/-- Every lock after `initlock`, every CPU as at boot. -/
def init : Spin C L := ⟨fun _ => Cpu.init, fun _ => initlock⟩

section Cpus

variable [DecidableEq C]

def setCpu (s : Spin C L) (c : C) (x : Cpu L) : Spin C L :=
  { s with cpus := Function.update s.cpus c x }

@[simp] theorem setCpu_cpus_self (s : Spin C L) (c : C) (x : Cpu L) : (s.setCpu c x).cpus c = x := by
  simp [setCpu]

@[simp] theorem setCpu_cpus_of_ne (s : Spin C L) {c d : C} (h : d ≠ c) (x : Cpu L) :
    (s.setCpu c x).cpus d = s.cpus d := by
  simp [setCpu, h]

@[simp] theorem setCpu_locks (s : Spin C L) (c : C) (x : Cpu L) : (s.setCpu c x).locks = s.locks :=
  rfl

@[simp] theorem setCpu_setCpu (s : Spin C L) (c : C) (x y : Cpu L) :
    (s.setCpu c x).setCpu c y = s.setCpu c y := by
  simp [setCpu]

end Cpus

section Locks

variable [DecidableEq L]

def setLock (s : Spin C L) (l : L) (k : Spinlock C) : Spin C L :=
  { s with locks := Function.update s.locks l k }

@[simp] theorem setLock_cpus (s : Spin C L) (l : L) (k : Spinlock C) :
    (s.setLock l k).cpus = s.cpus :=
  rfl

@[simp] theorem setLock_locks_self (s : Spin C L) (l : L) (k : Spinlock C) :
    (s.setLock l k).locks l = k := by
  simp [setLock]

@[simp] theorem setLock_locks_of_ne (s : Spin C L) {l m : L} (h : m ≠ l) (k : Spinlock C) :
    (s.setLock l k).locks m = s.locks m := by
  simp [setLock, h]

end Locks

variable [DecidableEq C] [DecidableEq L]

/-- `holding(lk)` run on CPU `c`: `lk->locked && lk->cpu == mycpu()`. -/
def holding (s : Spin C L) (l : L) (c : C) : Bool :=
  (s.locks l).locked && (s.locks l).cpu == some c

omit [DecidableEq L] in
@[simp] theorem holding_setCpu (s : Spin C L) (c : C) (x : Cpu L) :
    (s.setCpu c x).holding = s.holding :=
  rfl

/-- `acquire(lk)` up to its loop: `push_off()`, then `if (holding(lk)) panic("acquire")`. -/
def acquire (s : Spin C L) (c : C) (l : L) : Except String (Spin C L) :=
  let s := s.setCpu c (s.cpus c).pushOff
  if s.holding l c then .error "acquire"
  else .ok (s.setCpu c { s.cpus c with place := .spin l })

/-- One pass of `acquire`'s loop, `__sync_lock_test_and_set(&lk->locked, 1)`:
an atomic swap that leaves the loop when it read `0`. -/
def swap (s : Spin C L) (c : C) (l : L) : Spin C L :=
  if (s.locks l).locked then s
  else (s.setLock l { s.locks l with locked := true }).setCpu c
    { s.cpus c with place := .claimed l }

/-- The end of `acquire`: `lk->cpu = mycpu()`. -/
def record (s : Spin C L) (c : C) (l : L) : Spin C L :=
  (s.setLock l { s.locks l with cpu := some c }).setCpu c
    { s.cpus c with place := .idle, held := l :: (s.cpus c).held }

/-- `release(lk)`: `if (!holding(lk)) panic("release")`, `lk->cpu = 0`,
`__sync_lock_release(&lk->locked)`, then `pop_off()`. -/
def release (s : Spin C L) (c : C) (l : L) : Except String (Spin C L) :=
  if !s.holding l c then .error "release"
  else
    let s := s.setLock l ⟨false, none⟩
    ({ s.cpus c with held := (s.cpus c).held.erase l }.popOff).map (s.setCpu c)

/-- One step of CPU `c`; `none` where the callers' rules forbid it, an error
where the code panics. -/
def step (s : Spin C L) : SpinEv C L → Option (Except String (Spin C L))
  | .acquire c l => if (s.cpus c).place = .idle then some (s.acquire c l) else none
  | .swap c =>
    match (s.cpus c).place with
    | .spin l => some (.ok (s.swap c l))
    | _ => none
  | .record c =>
    match (s.cpus c).place with
    | .claimed l => some (.ok (s.record c l))
    | _ => none
  | .release c l => if (s.cpus c).place = .idle then some (s.release c l) else none
  | .pushOff c =>
    if (s.cpus c).place = .idle then
      some (.ok (s.setCpu c { (s.cpus c).pushOff with bare := (s.cpus c).bare + 1 }))
    else none
  | .popOff c =>
    if (s.cpus c).place = .idle ∧ 0 < (s.cpus c).bare then
      some ({ s.cpus c with bare := (s.cpus c).bare - 1 }.popOff.map (s.setCpu c))
    else none
  | .intrOn c =>
    if (s.cpus c).place = .idle ∧ (s.cpus c).noff = 0 then
      some (.ok (s.setCpu c { s.cpus c with sie := true }))
    else none
  | .intrOff c =>
    if (s.cpus c).place = .idle then some (.ok (s.setCpu c { s.cpus c with sie := false }))
    else none

/-- Run a list of events; `none` as soon as one cannot happen or panics. -/
def run (s : Spin C L) : List (SpinEv C L) → Option (Spin C L)
  | [] => some s
  | e :: es =>
    match s.step e with
    | some (.ok s') => s'.run es
    | _ => none

end Spin

/-- The spinlocks under any interleaving of the CPUs' calls. -/
def spinSys (C L : Type) [DecidableEq C] [DecidableEq L] : TSys (Spin C L) (SpinEv C L) where
  init s := s = Spin.init
  step s e s' := s.step e = some (.ok s')

theorem Spin.reachable_of_run [DecidableEq C] [DecidableEq L] {s s' : Spin C L}
    {es : List (SpinEv C L)} (hs : (spinSys C L).Reachable s) (h : s.run es = some s') :
    (spinSys C L).Reachable s' := by
  induction es generalizing s with
  | nil =>
    cases h
    exact hs
  | cons e es ih =>
    simp only [Spin.run] at h
    split at h
    · rename_i s₁ hstep
      exact ih (.step hs hstep) h
    · cases h

/-! ## The invariant -/

variable [DecidableEq C] [DecidableEq L]

/-- Moving CPU `c` to `x` moves the sum of the claims on `l` from `c`'s to `x`'s. -/
theorem Spin.sum_claims_setCpu [Fintype C] (s : Spin C L) (c : C) (x : Cpu L) (l : L) :
    (∑ d, ((s.setCpu c x).cpus d).claims l) + (s.cpus c).claims l =
      (∑ d, (s.cpus d).claims l) + x.claims l := by
  have h : (fun d => ((s.setCpu c x).cpus d).claims l) =
      Function.update (fun d => (s.cpus d).claims l) c (x.claims l) := by
    funext d
    by_cases hd : d = c
    · subst hd
      simp
    · simp [hd]
  rw [h]
  exact sum_update_add _ c _

variable [Fintype C]

/-- The lock word counts the CPUs that have taken the lock, so that at most one
has; `lk->cpu` names the CPU that acquired it; and each CPU keeps `CpuInv`. -/
structure SpinInv (s : Spin C L) : Prop where
  owners : ∀ l, ∑ c, (s.cpus c).claims l = (s.locks l).locked.toNat
  holder : ∀ l c, (s.locks l).cpu = some c ↔ l ∈ (s.cpus c).held
  cpu : ∀ c, (s.cpus c).CpuInv

namespace SpinInv

variable {s : Spin C L} {c : C} {l : L}

omit [DecidableEq C] in
theorem init : SpinInv (Spin.init : Spin C L) where
  owners l := by simp [Spin.init, Cpu.claims, Cpu.init, initlock]
  holder l c := by simp [Spin.init, Cpu.init, initlock]
  cpu _ := Cpu.CpuInv.init

omit [DecidableEq C] in
theorem claims_le_one (hi : SpinInv s) (c : C) (l : L) : (s.cpus c).claims l ≤ 1 := by
  have hle := le_sum (fun d => (s.cpus d).claims l) c
  have hsum := hi.owners l
  have := Bool.toNat_le (s.locks l).locked
  omega

/-- Two CPUs that have taken one lock are one. -/
theorem eq_of_claims (hi : SpinInv s) {d : C} (hc : 0 < (s.cpus c).claims l)
    (hd : 0 < (s.cpus d).claims l) : c = d := by
  by_contra hne
  have hle := add_le_sum (fun e => (s.cpus e).claims l) hne
  have hsum := hi.owners l
  have := Bool.toNat_le (s.locks l).locked
  omega

omit [DecidableEq C] in
/-- A lock some CPU has taken is locked. -/
theorem locked_of_claims (hi : SpinInv s) (hc : 0 < (s.cpus c).claims l) :
    (s.locks l).locked = true := by
  have hle := le_sum (fun d => (s.cpus d).claims l) c
  have hsum := hi.owners l
  cases hl : (s.locks l).locked
  · rw [hl, Bool.toNat_false] at hsum
    omega
  · rfl

/-- `holding(lk)` on CPU `c` answers whether `c` acquired `lk`. -/
theorem holding_iff (hi : SpinInv s) : s.holding l c = true ↔ l ∈ (s.cpus c).held := by
  unfold Spin.holding
  rw [Bool.and_eq_true, beq_iff_eq, hi.holder l c]
  exact ⟨And.right, fun h => ⟨hi.locked_of_claims (Cpu.claims_pos_of_held h), h⟩⟩

/-- A step of CPU `c` alone that keeps what it holds and has taken. -/
theorem setCpu (hi : SpinInv s) {x : Cpu L} (hheld : x.held = (s.cpus c).held)
    (hclaims : x.claims = (s.cpus c).claims) (hx : x.CpuInv) : SpinInv (s.setCpu c x) where
  owners m := by
    have hsum := Spin.sum_claims_setCpu s c x m
    rw [hclaims] at hsum
    rw [Spin.setCpu_locks, ← hi.owners m]
    omega
  holder m d := by
    by_cases hd : d = c
    · subst hd
      rw [Spin.setCpu_locks, Spin.setCpu_cpus_self, hheld]
      exact hi.holder m d
    · rw [Spin.setCpu_locks, Spin.setCpu_cpus_of_ne s hd]
      exact hi.holder m d
  cpu d := by
    by_cases hd : d = c
    · subst hd
      rw [Spin.setCpu_cpus_self]
      exact hx
    · rw [Spin.setCpu_cpus_of_ne s hd]
      exact hi.cpu d

/-- `acquire` up to its loop: one `push_off` more, now counted by the place. -/
theorem acquire (hi : SpinInv s) (hp : (s.cpus c).place = .idle) {s' : Spin C L}
    (h : s.acquire c l = .ok s') : SpinInv s' := by
  unfold Spin.acquire at h
  dsimp only at h
  split_ifs at h
  cases h
  rw [Spin.setCpu_setCpu, Spin.setCpu_cpus_self]
  have hx := hi.cpu c
  refine hi.setCpu (by simp) ?_ ⟨?_, fun _ => by simp⟩
  · funext m
    simp [Cpu.claims, hp]
  · simp only [Cpu.pushOff_noff, Cpu.pushOff_held, Cpu.pushOff_bare, hx.depth, hp, LockAt.pushes]
    omega

/-- A step of CPU `c` on lock `l`, writing the lock `k` and moving `c` to `x`:
the lock's count follows `c`'s claim on it, `k.cpu` is the CPU that now holds
it, and `c`'s hold on every other lock is as before. -/
theorem update (hi : SpinInv s) {k : Spinlock C} {x : Cpu L} (hx : x.CpuInv)
    (hother : ∀ m, m ≠ l → x.claims m = (s.cpus c).claims m ∧ (m ∈ x.held ↔ m ∈ (s.cpus c).held))
    (hsum : (∑ d, (s.cpus d).claims l) + x.claims l = k.locked.toNat + (s.cpus c).claims l)
    (hholder : ∀ d, k.cpu = some d ↔ l ∈ ((s.setCpu c x).cpus d).held) :
    SpinInv ((s.setLock l k).setCpu c x) where
  owners m := by
    have hmove := Spin.sum_claims_setCpu (s.setLock l k) c x m
    rw [Spin.setLock_cpus] at hmove
    rw [Spin.setCpu_locks]
    by_cases hm : m = l
    · subst hm
      rw [Spin.setLock_locks_self]
      omega
    · rw [(hother m hm).1] at hmove
      rw [Spin.setLock_locks_of_ne s hm, ← hi.owners m]
      omega
  holder m d := by
    rw [Spin.setCpu_locks]
    by_cases hm : m = l
    · subst hm
      rw [Spin.setLock_locks_self]
      exact hholder d
    · rw [Spin.setLock_locks_of_ne s hm, hi.holder m d]
      by_cases hd : d = c
      · subst hd
        rw [Spin.setCpu_cpus_self, (hother m hm).2]
      · rw [Spin.setCpu_cpus_of_ne _ hd, Spin.setLock_cpus]
  cpu d := by
    by_cases hd : d = c
    · subst hd
      rw [Spin.setCpu_cpus_self]
      exact hx
    · rw [Spin.setCpu_cpus_of_ne _ hd, Spin.setLock_cpus]
      exact hi.cpu d

/-- A swap of `acquire`'s loop: on a free lock, `c` takes it. -/
theorem swap (hi : SpinInv s) (hp : (s.cpus c).place = .spin l) : SpinInv (s.swap c l) := by
  unfold Spin.swap
  split_ifs with hl
  · exact hi
  -- the lock was free: no CPU had taken it
  have hsum := hi.owners l
  rw [Bool.not_eq_true] at hl
  rw [hl, Bool.toNat_false] at hsum
  have hx := hi.cpu c
  refine hi.update ⟨?_, fun hn => hx.intr (by simpa using hn)⟩ (fun m hml => ⟨?_, Iff.rfl⟩) ?_
    (fun d => ?_)
  · simp only [hx.depth, hp, LockAt.pushes]
  · simp [Cpu.claims, hp, Ne.symm hml]
  · -- `c`'s claim and the lock's count both go from `0` to `1`
    have hxc : ({ s.cpus c with place := .claimed l } : Cpu L).claims l =
        (s.cpus c).held.count l + 1 := by
      simp [Cpu.claims]
    have hcc : (s.cpus c).claims l = (s.cpus c).held.count l := by simp [Cpu.claims, hp]
    rw [hxc, hcc, hsum]
    simp only [Bool.toNat_true]
    omega
  · rw [hi.holder l d]
    by_cases hd : d = c
    · subst hd
      simp
    · rw [Spin.setCpu_cpus_of_ne _ hd]

/-- The end of `acquire`: the lock `c` took is held, and `lk->cpu` names it. -/
theorem record (hi : SpinInv s) (hp : (s.cpus c).place = .claimed l) : SpinInv (s.record c l) := by
  have hx := hi.cpu c
  have hclaim : 0 < (s.cpus c).claims l := by simp [Cpu.claims, hp]
  refine hi.update ⟨?_, fun hn => hx.intr (by simpa using hn)⟩ (fun m hml => ⟨?_, ?_⟩) ?_
    (fun d => ?_)
  · simp only [hx.depth, hp, LockAt.pushes, List.length_cons]
  · simp [Cpu.claims, hp, Ne.symm hml]
  · simp [hml]
  · -- the claim moves from the place to the list of locks held
    have hxc : ({ s.cpus c with place := .idle, held := l :: (s.cpus c).held } : Cpu L).claims l =
        (s.cpus c).held.count l + 1 := by
      simp [Cpu.claims]
    have hcc : (s.cpus c).claims l = (s.cpus c).held.count l + 1 := by simp [Cpu.claims, hp]
    rw [hxc, hcc, hi.owners l]
  · by_cases hd : d = c
    · subst hd
      simp
    · -- the lock is `c`'s alone
      rw [Spin.setCpu_cpus_of_ne _ hd]
      simp only [Option.some.injEq, Ne.symm hd, false_iff]
      exact fun hmem => hd (hi.eq_of_claims (Cpu.claims_pos_of_held hmem) hclaim)

/-- `release` of a lock the CPU holds: the lock is free again and `pop_off`
undoes the `push_off` of its `acquire`. -/
theorem release (hi : SpinInv s) (hp : (s.cpus c).place = .idle) {s' : Spin C L}
    (h : s.release c l = .ok s') : SpinInv s' := by
  unfold Spin.release at h
  dsimp only at h
  split_ifs at h with hhold
  have hmem := hi.holding_iff.mp (by simpa using hhold)
  simp only [Spin.setLock_cpus] at h
  obtain ⟨y, hy, rfl⟩ := map_eq_ok h
  have hx := hi.cpu c
  -- `c` took the lock once: the list of locks it holds has it once
  have hcount : (s.cpus c).held.count l = 1 := by
    have hle := hi.claims_le_one c l
    have hpos := Cpu.claims_pos_of_held hmem
    rw [Cpu.claims_of_not_claimed (by simp [hp])] at hle hpos
    omega
  have hlen := List.length_erase_of_mem hmem
  have hlen_pos := List.length_pos_of_mem hmem
  obtain ⟨hyi, hyh, hyp⟩ := Cpu.CpuInv.popOff (x := { (s.cpus c) with held := (s.cpus c).held.erase l })
    (hx.intr (by rw [hx.depth]; omega)) (by simp only [hx.depth, hp, LockAt.pushes]; omega) hy
  simp only at hyh hyp
  have hyc : ∀ m, y.claims m = ((s.cpus c).held.erase l).count m := fun m => by
    rw [Cpu.claims_of_not_claimed (x := y) (by simp [hyp, hp]), hyh]
  refine hi.update hyi (fun m hml => ⟨?_, ?_⟩) ?_ (fun d => ?_)
  · rw [hyc, List.count_erase_of_ne hml, Cpu.claims_of_not_claimed (by simp [hp])]
  · rw [hyh, List.mem_erase_of_ne hml]
  · -- `c`'s claim and the lock's count both go from `1` to `0`
    have hsum := hi.owners l
    rw [hi.locked_of_claims (Cpu.claims_pos_of_held hmem), Bool.toNat_true] at hsum
    rw [hyc, List.count_erase_self, hcount, Cpu.claims_of_not_claimed (by simp [hp]), hcount, hsum]
    rfl
  · simp only [reduceCtorEq, false_iff]
    intro hd
    by_cases hdc : d = c
    · subst hdc
      rw [Spin.setCpu_cpus_self, hyh] at hd
      -- the one copy of `l` is gone
      have hzero : ((s.cpus d).held.erase l).count l = 0 := by rw [List.count_erase_self, hcount]
      exact absurd (List.count_pos_iff.mpr hd) (by omega)
    · rw [Spin.setCpu_cpus_of_ne _ hdc] at hd
      exact hdc (hi.eq_of_claims (Cpu.claims_pos_of_held hd) (Cpu.claims_pos_of_held hmem))

/-- Every step keeps the invariant. -/
theorem step (hi : SpinInv s) {e : SpinEv C L} {s' : Spin C L} (h : s.step e = some (.ok s')) :
    SpinInv s' := by
  cases e with
  | acquire c l =>
    simp only [Spin.step] at h
    split_ifs at h with hp
    exact hi.acquire hp (Option.some.inj h)
  | swap c =>
    simp only [Spin.step] at h
    split at h
    · rename_i l hp
      cases h
      exact hi.swap hp
    · cases h
  | record c =>
    simp only [Spin.step] at h
    split at h
    · rename_i l hp
      cases h
      exact hi.record hp
    · cases h
  | release c l =>
    simp only [Spin.step] at h
    split_ifs at h with hp
    exact hi.release hp (Option.some.inj h)
  | pushOff c =>
    simp only [Spin.step] at h
    split_ifs at h with hp
    cases h
    have hx := hi.cpu c
    refine hi.setCpu (by simp) (Cpu.claims_congr (by simp) (by simp)) ⟨?_, fun _ => by simp⟩
    simp only [Cpu.pushOff_noff, Cpu.pushOff_held, Cpu.pushOff_place, hx.depth]
    omega
  | popOff c =>
    simp only [Spin.step] at h
    split_ifs at h with hp
    obtain ⟨y, hy, rfl⟩ := map_eq_ok (Option.some.inj h)
    have hx := hi.cpu c
    -- the call undone is one of the CPU's own, so `noff` was positive
    obtain ⟨hyi, hyh, hyp⟩ := Cpu.CpuInv.popOff (x := { s.cpus c with bare := (s.cpus c).bare - 1 })
      (hx.intr (by rw [hx.depth]; omega)) (by
        show (s.cpus c).noff = (s.cpus c).held.length + (s.cpus c).place.pushes +
          ((s.cpus c).bare - 1) + 1
        rw [hx.depth]
        omega) hy
    simp only at hyh hyp
    exact hi.setCpu hyh (Cpu.claims_congr hyh hyp) hyi
  | intrOn c =>
    simp only [Spin.step] at h
    split_ifs at h with hp
    cases h
    exact hi.setCpu rfl (Cpu.claims_congr rfl rfl)
      ⟨(hi.cpu c).depth, fun hn => absurd hp.2 (Nat.pos_iff_ne_zero.mp hn)⟩
  | intrOff c =>
    simp only [Spin.step] at h
    split_ifs at h with hp
    cases h
    exact hi.setCpu rfl (Cpu.claims_congr rfl rfl) ⟨(hi.cpu c).depth, fun _ => rfl⟩

end SpinInv

theorem spinInv_invariant : (spinSys C L).Invariant SpinInv :=
  TSys.Invariant.of_inductive (fun _ h => h ▸ SpinInv.init) fun _ _ _ hi h => hi.step h

/-- Mutual exclusion: in every reachable state, at most one CPU has acquired a
lock, and `holding(lk)` on any CPU answers whether that CPU has. -/
theorem spinlock_mutual_exclusion {s : Spin C L} (hs : (spinSys C L).Reachable s) (l : L) :
    (∀ c d, l ∈ (s.cpus c).held → l ∈ (s.cpus d).held → c = d) ∧
      ∀ c, s.holding l c = true ↔ l ∈ (s.cpus c).held := by
  have hi := spinInv_invariant s hs
  exact ⟨fun c d hc hd => hi.eq_of_claims (Cpu.claims_pos_of_held hc) (Cpu.claims_pos_of_held hd),
    fun c => hi.holding_iff⟩

/-- One lock: CPU `2` turns its interrupts on, CPU `0` acquires the lock, and
CPU `1` spins on it. -/
def contendedRun : List (SpinEv (Fin nCpu) Unit) :=
  [.intrOn 2, .acquire 0 (), .swap 0, .record 0, .acquire 1 (), .swap 1]

theorem spinlock_mutual_exclusion_contended : ∃ s : Spin (Fin nCpu) Unit,
    (spinSys _ _).Reachable s ∧ (s.cpus 1).place = .spin () ∧
      ((∀ c d, () ∈ (s.cpus c).held → () ∈ (s.cpus d).held → c = d) ∧
        ∀ c, s.holding () c = true ↔ () ∈ (s.cpus c).held) := by
  obtain ⟨s, hrun, hp⟩ : ∃ s, Spin.init.run contendedRun = some s ∧
      (s.cpus 1).place = .spin () :=
    ⟨_, rfl, rfl⟩
  have hs := Spin.reachable_of_run (.init rfl) hrun
  exact ⟨s, hs, hp, spinlock_mutual_exclusion hs ()⟩

/-- A CPU whose interrupts are on holds no spinlock and is not in `acquire`:
no interrupt handler can spin on a lock its own CPU holds. -/
theorem spinlock_intr_off {s : Spin C L} (hs : (spinSys C L).Reachable s) (c : C)
    (hsie : (s.cpus c).sie = true) : (s.cpus c).held = [] ∧ (s.cpus c).place = .idle := by
  have hx := (spinInv_invariant s hs).cpu c
  -- interrupts on means no `push_off` is outstanding
  have hzero : (s.cpus c).noff = 0 := by
    by_contra hn
    rw [hx.intr (Nat.pos_of_ne_zero hn)] at hsie
    cases hsie
  have hdepth := hx.depth
  rw [hzero] at hdepth
  exact ⟨List.eq_nil_of_length_eq_zero (by omega), LockAt.pushes_eq_zero.mp (by omega)⟩

theorem spinlock_intr_off_contended : ∃ s : Spin (Fin nCpu) Unit,
    (spinSys _ _).Reachable s ∧ (s.cpus 2).sie = true ∧
      (s.cpus 2).held = [] ∧ (s.cpus 2).place = .idle := by
  obtain ⟨s, hrun, hsie⟩ : ∃ s, Spin.init.run contendedRun = some s ∧ (s.cpus 2).sie = true :=
    ⟨_, rfl, rfl⟩
  have hs := Spin.reachable_of_run (.init rfl) hrun
  exact ⟨s, hs, hsie, spinlock_intr_off hs 2 hsie⟩

omit [DecidableEq L] in
/-- `pop_off` on a CPU with interrupts off and a call to undo does not panic. -/
theorem Cpu.popOff_ne_error {x : Cpu L} (hs : x.sie = false) (hn : 0 < x.noff) (e : String) :
    x.popOff ≠ .error e := fun h => by
  rcases Cpu.popOff_error h with h | h
  · rw [hs] at h
    cases h
  · omega

/-- The only panics a run reaches are `acquire` of a lock the CPU holds and
`release` of one it does not, the misuses `holding` is there to catch:
`pop_off` never finds interrupts on or nothing to undo. -/
theorem spinlock_panics {s : Spin C L} (hs : (spinSys C L).Reachable s) {e : SpinEv C L}
    {msg : String} (h : s.step e = some (.error msg)) :
    (∃ c l, e = .acquire c l ∧ l ∈ (s.cpus c).held ∧ msg = "acquire") ∨
      (∃ c l, e = .release c l ∧ l ∉ (s.cpus c).held ∧ msg = "release") := by
  have hi := spinInv_invariant s hs
  cases e with
  | acquire c l =>
    simp only [Spin.step] at h
    split_ifs at h with hp
    unfold Spin.acquire at h
    dsimp only at h
    split_ifs at h with hhold
    · cases h
      rw [Spin.holding_setCpu] at hhold
      exact .inl ⟨c, l, rfl, hi.holding_iff.mp hhold, rfl⟩
    · cases h
  | release c l =>
    simp only [Spin.step] at h
    split_ifs at h with hp
    unfold Spin.release at h
    dsimp only at h
    split_ifs at h with hhold
    · cases h
      exact .inr ⟨c, l, rfl, fun hm => by simp [hi.holding_iff.mpr hm] at hhold, rfl⟩
    · -- a lock the CPU holds: `noff` counts its `acquire`, so `pop_off` returns
      exfalso
      have hmem := hi.holding_iff.mp (by simpa using hhold)
      have hx := hi.cpu c
      have hpos := List.length_pos_of_mem hmem
      simp only [Spin.setLock_cpus] at h
      cases hy : ({ s.cpus c with held := (s.cpus c).held.erase l } : Cpu L).popOff with
      | error e' =>
        exact Cpu.popOff_ne_error (x := { s.cpus c with held := (s.cpus c).held.erase l })
          (hx.intr (by rw [hx.depth]; omega)) (by rw [hx.depth]; omega) e' hy
      | ok y =>
        rw [hy] at h
        cases h
  | popOff c =>
    simp only [Spin.step] at h
    split_ifs at h with hp
    exfalso
    have hx := hi.cpu c
    cases hy : ({ s.cpus c with bare := (s.cpus c).bare - 1 } : Cpu L).popOff with
    | error e' =>
      exact Cpu.popOff_ne_error (x := { s.cpus c with bare := (s.cpus c).bare - 1 })
        (hx.intr (by rw [hx.depth]; omega)) (by rw [hx.depth]; omega) e' hy
    | ok y =>
      rw [hy] at h
      cases h
  | swap c =>
    simp only [Spin.step] at h
    split at h <;> cases h
  | record c =>
    simp only [Spin.step] at h
    split at h <;> cases h
  | pushOff c =>
    simp only [Spin.step] at h
    split_ifs at h
    cases h
  | intrOn c =>
    simp only [Spin.step] at h
    split_ifs at h
    cases h
  | intrOff c =>
    simp only [Spin.step] at h
    split_ifs at h
    cases h

/-- CPU `0`, holding the lock, calls `acquire` on it again. -/
theorem spinlock_panics_reacquire : ∃ s : Spin (Fin nCpu) Unit,
    (spinSys _ _).Reachable s ∧ s.step (.acquire 0 ()) = some (.error "acquire") ∧
      ((∃ c l, SpinEv.acquire 0 () = .acquire c l ∧ l ∈ (s.cpus c).held ∧ "acquire" = "acquire") ∨
        (∃ c l, SpinEv.acquire 0 () = .release c l ∧ l ∉ (s.cpus c).held ∧
          "acquire" = "release")) := by
  obtain ⟨s, hrun, hstep⟩ : ∃ s, Spin.init.run contendedRun = some s ∧
      s.step (.acquire 0 ()) = some (.error "acquire") :=
    ⟨_, rfl, rfl⟩
  have hs := Spin.reachable_of_run (.init rfl) hrun
  exact ⟨s, hs, hstep, spinlock_panics hs hstep⟩

end Xv6.Kernel
