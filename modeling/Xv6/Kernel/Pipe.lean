import Xv6.Lib.Reach
import Xv6.Lib.Ring

/-!
# Pipes (`kernel/pipe.c`)

`struct pipe` is a ring of `PIPESIZE` bytes between two free-running `uint`
counters: `nwrite` counts the bytes ever put in, `nread` the bytes ever taken
out, and a byte's cell is its counter modulo `PIPESIZE`. The bytes in the pipe
are `Pipe.contents`, the window of the ring from `nread` to `nwrite`.

Any number of processes call `pipewrite`, `piperead` and `pipeclose` on one
pipe. Each holds `pi->lock` from `acquire` to `release` or `sleep`, so:

* a pass of `pipewrite`'s loop is one step (`PipeEv.writeLoop`): the call can
  sleep between passes, and other calls run in between;
* `piperead` is one step from the moment its wait loop lets it through:
  before that it changes nothing, and its copy loop never sleeps;
* `sleep` is blocking: a pass that would sleep is not a step.

`killed(pr)` reads a flag that `kill` sets at any moment, so kills are events
of their own. The ghost fields of `PipeSys` record every byte put in, taken
out and returned to a reader, and the bytes each finished `pipewrite`
counts as written in its return value.
-/

namespace Xv6.Kernel

open Xv6.Lib

/-- `PIPESIZE`. -/
def pipeSize : Nat := 512

instance : NeZero pipeSize := ⟨by decide⟩

theorem pipeSize_dvd : pipeSize ∣ 2 ^ 32 := ⟨2 ^ 23, by decide⟩

/-- `struct pipe`, without its lock. -/
structure Pipe where
  data : Fin pipeSize → UInt8
  nread : UInt32
  nwrite : UInt32
  readopen : Bool
  writeopen : Bool

namespace Pipe

/-- The pipe `pipealloc` sets up in a fresh page of `data`. -/
def alloc (data : Fin pipeSize → UInt8) : Pipe := ⟨data, 0, 0, true, true⟩

/-- `pi->nread == pi->nwrite`. -/
def isEmpty (pi : Pipe) : Bool := pi.nread == pi.nwrite

/-- `pi->nwrite == pi->nread + PIPESIZE`. -/
def isFull (pi : Pipe) : Bool := pi.nwrite == pi.nread + UInt32.ofNat pipeSize

/-- `pi->data[pi->nwrite++ % PIPESIZE] = ch`. -/
def put (pi : Pipe) (ch : UInt8) : Pipe :=
  { pi with data := Function.update pi.data (slot pipeSize pi.nwrite) ch,
            nwrite := pi.nwrite + 1 }

/-- The byte `pi->data[pi->nread++ % PIPESIZE]` reads. -/
def head (pi : Pipe) : UInt8 := pi.data (slot pipeSize pi.nread)

/-- The pipe after `pi->nread++`. -/
def next (pi : Pipe) : Pipe := { pi with nread := pi.nread + 1 }

/-- `pipeclose`'s update of the open flags, before `kfree` when both are
closed. -/
def close (pi : Pipe) (writable : Bool) : Pipe :=
  if writable then { pi with writeopen := false } else { pi with readopen := false }

/-- The bytes in the pipe, oldest first. -/
def contents (pi : Pipe) : List UInt8 := window pi.data pi.nread pi.nwrite

theorem length_contents (pi : Pipe) : pi.contents.length = (pi.nwrite - pi.nread).toNat :=
  length_window _ _ _

theorem isEmpty_iff (pi : Pipe) : pi.isEmpty = true ↔ pi.contents = [] := by
  rw [contents, window_eq_nil_iff, isEmpty, beq_iff_eq]

/-- A pipe that is not full, with at most `PIPESIZE` bytes, has room. -/
theorem length_contents_lt {pi : Pipe} (hfull : pi.isFull = false)
    (hb : pi.contents.length ≤ pipeSize) : pi.contents.length < pipeSize := by
  have hne : pi.nwrite ≠ pi.nread + UInt32.ofNat pipeSize := by simpa [isFull] using hfull
  rw [length_contents] at hb ⊢
  rw [Ne, ← UInt32.toNat_inj, UInt32.toNat_add] at hne
  rw [UInt32.toNat_sub] at hb ⊢
  have := UInt32.toNat_lt pi.nread
  have := UInt32.toNat_lt pi.nwrite
  simp only [pipeSize, UInt32.toNat_ofNat'] at hb hne ⊢
  omega

theorem contents_put {pi : Pipe} (hroom : pi.contents.length < pipeSize) (ch : UInt8) :
    (pi.put ch).contents = pi.contents ++ [ch] := by
  rw [length_contents] at hroom
  exact window_push pipeSize_dvd pi.data hroom (by decide) ch

theorem contents_next {pi : Pipe} (hne : pi.isEmpty = false) :
    pi.contents = pi.head :: pi.next.contents := by
  have hne' : pi.nread ≠ pi.nwrite := by simpa [isEmpty] using hne
  exact window_pop pipeSize_dvd pi.data hne'

theorem contents_alloc (data : Fin pipeSize → UInt8) : (alloc data).contents = [] :=
  window_self _ _

@[simp] theorem close_isEmpty (pi : Pipe) (w : Bool) : (pi.close w).isEmpty = pi.isEmpty := by
  cases w <;> rfl

end Pipe

/-- A `pipewrite(pi, addr, n)` call in progress: what `copyin` gives for
each offset from `addr` (`none` where it fails), `n`, and the loop's `i`. -/
structure WriteCall where
  src : Nat → Option UInt8
  n : Int
  i : Nat

/-- The bytes a return value `r` of the call counts as written: those at
`addr`, ..., `addr + r - 1`. -/
def WriteCall.counted (c : WriteCall) (r : Int) : List UInt8 :=
  (List.range r.toNat).filterMap c.src

/-- What one pass of `pipewrite`'s loop does. -/
inductive WritePass where
  /-- the call releases the lock and returns `r` -/
  | ret (r : Int)
  /-- `ch` goes into the pipe and `i++` -/
  | store (ch : UInt8)
  /-- the pipe is full: wake readers and sleep -/
  | sleeps

/-- One pass of `pipewrite`'s loop, by a process whose `killed` flag reads
`killed`. -/
def pipewritePass (pi : Pipe) (killed : Bool) (c : WriteCall) : WritePass :=
  if (c.i : Int) < c.n then
    if !pi.readopen || killed then .ret (-1)
    else if pi.isFull then .sleeps
    else match c.src c.i with
      -- `copyin` failed: `break`
      | none => .ret c.i
      | some ch => .store ch
  else .ret c.i

/-- The pipe and the processes that use it, with ghost history. -/
structure PipeSys (Pid : Type) where
  pipe : Pipe
  /-- the `pipewrite` call each process is in -/
  writing : Pid → Option WriteCall
  killed : Pid → Bool
  /-- every byte put in, in order -/
  stored : List UInt8
  /-- every byte taken out, in order -/
  taken : List UInt8
  /-- every byte a `piperead` returned to its caller, in order -/
  delivered : List UInt8
  /-- the bytes counted by the return values of finished `pipewrite` calls -/
  counted : List UInt8
  /-- some `copyout` of `piperead` has failed -/
  faulted : Bool

/-- The events of one pipe. -/
inductive PipeEv (Pid : Type) where
  /-- `p` calls `pipewrite(pi, addr, n)`; `copyin` at `addr + i` gives `src i` -/
  | write (p : Pid) (src : Nat → Option UInt8) (n : Int)
  /-- one pass of `p`'s `pipewrite` loop -/
  | writeLoop (p : Pid)
  /-- `p`'s `piperead(pi, addr, n)` once it stops waiting; `copyout` to
  `addr + i` succeeds iff `dst i` -/
  | read (p : Pid) (dst : Nat → Bool) (n : Int)
  | close (writable : Bool)
  | kill (p : Pid)

namespace PipeSys

variable {Pid : Type} [DecidableEq Pid]

/-- The system after `pipealloc`, no process in a call or killed. -/
def init (data : Fin pipeSize → UInt8) : PipeSys Pid :=
  ⟨Pipe.alloc data, fun _ => none, fun _ => false, [], [], [], [], false⟩

/-- `pi->data[pi->nwrite++ % PIPESIZE] = ch`, recorded in `stored`. -/
def putByte (σ : PipeSys Pid) (ch : UInt8) : PipeSys Pid :=
  { σ with pipe := σ.pipe.put ch, stored := σ.stored ++ [ch] }

/-- `pi->nread++` of the byte at `nread`, recorded in `taken`. -/
def takeByte (σ : PipeSys Pid) : PipeSys Pid :=
  { σ with pipe := σ.pipe.next, taken := σ.taken ++ [σ.pipe.head] }

/-- `piperead`'s copy loop at `i`, with `k` passes left before `i = n`: the
`i` it returns and the state after. A failed `copyout` ends the loop with its
byte taken but not returned. -/
def readLoop (dst : Nat → Bool) (σ : PipeSys Pid) (i : Nat) : Nat → Nat × PipeSys Pid
  | 0 => (i, σ)
  | k + 1 =>
    if σ.pipe.isEmpty then (i, σ)
    else if dst i then
      readLoop dst { σ.takeByte with delivered := σ.delivered ++ [σ.pipe.head] } (i + 1) k
    else (i, { σ.takeByte with faulted := true })

/-- `piperead(pi, addr, n)` by `p`, from the moment its wait loop would let it
through or `killed` makes it return `-1`; `none` while it sleeps. -/
def piperead (σ : PipeSys Pid) (p : Pid) (dst : Nat → Bool) (n : Int) :
    Option (Int × PipeSys Pid) :=
  if σ.pipe.isEmpty && σ.pipe.writeopen then
    if σ.killed p then some (-1, σ) else none
  else
    let (i, σ') := readLoop dst σ 0 n.toNat
    some (i, σ')

/-- The end of `p`'s `pipewrite` call `c`, returning `r`. -/
def finishWrite (σ : PipeSys Pid) (p : Pid) (c : WriteCall) (r : Int) : PipeSys Pid :=
  { σ with writing := Function.update σ.writing p none, counted := σ.counted ++ c.counted r }

/-- One event: `none` when it cannot happen now (a process is not where the
event happens, or it sleeps). -/
def step (σ : PipeSys Pid) : PipeEv Pid → Option (PipeSys Pid)
  | .write p src n =>
    match σ.writing p with
    | some _ => none
    | none => some { σ with writing := Function.update σ.writing p (some ⟨src, n, 0⟩) }
  | .writeLoop p =>
    match σ.writing p with
    | none => none
    | some c =>
      match pipewritePass σ.pipe (σ.killed p) c with
      | .ret r => some (σ.finishWrite p c r)
      | .store ch =>
        some { σ.putByte ch with writing := Function.update σ.writing p (some { c with i := c.i + 1 }) }
      | .sleeps => none
  | .read p dst n =>
    match σ.writing p with
    | some _ => none
    | none => (σ.piperead p dst n).map Prod.snd
  | .close w => some { σ with pipe := σ.pipe.close w }
  | .kill p => some { σ with killed := Function.update σ.killed p true }

/-- Run a list of events; `none` as soon as one cannot happen. -/
def run (σ : PipeSys Pid) : List (PipeEv Pid) → Option (PipeSys Pid)
  | [] => some σ
  | e :: es => (σ.step e).bind fun σ' => σ'.run es

end PipeSys

/-- One pipe as a transition system. -/
def pipeSys (Pid : Type) [DecidableEq Pid] : TSys (PipeSys Pid) (PipeEv Pid) where
  init σ := ∃ data, σ = PipeSys.init data
  step σ e σ' := σ.step e = some σ'

/-! ## What each event does -/

namespace PipeSys

variable {Pid : Type} [DecidableEq Pid] {σ σ' : PipeSys Pid} {p : Pid}

theorem step_read {dst : Nat → Bool} {n : Int} (h : σ.step (.read p dst n) = some σ') :
    σ' = σ ∨ σ' = (readLoop dst σ 0 n.toNat).2 := by
  simp only [step] at h
  split at h
  · cases h
  · simp only [piperead] at h
    split_ifs at h with hw hk
    · exact .inl (Option.some.inj h).symm
    · cases h
    · exact .inr (Option.some.inj h).symm

end PipeSys

/-! ## The pipe is a FIFO of the bytes written -/

namespace PipeSys

variable {Pid : Type} {σ σ' : PipeSys Pid}

/-- What every reachable state satisfies: the counters stay at most
`PIPESIZE` apart, the bytes taken out followed by the bytes in the pipe are
the bytes put in, and readers got every byte taken out unless a `copyout`
failed. -/
structure PipeInv (σ : PipeSys Pid) : Prop where
  bound : σ.pipe.contents.length ≤ pipeSize
  fifo : σ.taken ++ σ.pipe.contents = σ.stored
  intact : σ.faulted = false → σ.delivered = σ.taken

theorem PipeInv.init (data : Fin pipeSize → UInt8) : PipeInv (PipeSys.init data : PipeSys Pid) where
  bound := by
    show (Pipe.alloc data).contents.length ≤ pipeSize
    rw [Pipe.contents_alloc]
    exact Nat.zero_le _
  fifo := by
    show [] ++ (Pipe.alloc data).contents = []
    rw [Pipe.contents_alloc]
    rfl
  intact _ := rfl

theorem PipeInv.putByte (hi : PipeInv σ) (hfull : σ.pipe.isFull = false) (ch : UInt8) :
    PipeInv (σ.putByte ch) := by
  have hput := Pipe.contents_put (Pipe.length_contents_lt hfull hi.bound) ch
  constructor
  · show (σ.pipe.put ch).contents.length ≤ pipeSize
    rw [hput, List.length_append, List.length_singleton]
    exact Pipe.length_contents_lt hfull hi.bound
  · show σ.taken ++ (σ.pipe.put ch).contents = σ.stored ++ [ch]
    rw [hput, ← hi.fifo, List.append_assoc]
  · exact hi.intact

theorem length_takeByte (hne : σ.pipe.isEmpty = false) :
    σ.takeByte.pipe.contents.length + 1 = σ.pipe.contents.length := by
  show σ.pipe.next.contents.length + 1 = σ.pipe.contents.length
  rw [Pipe.contents_next hne, List.length_cons]

theorem fifo_takeByte (hi : PipeInv σ) (hne : σ.pipe.isEmpty = false) :
    σ.takeByte.taken ++ σ.takeByte.pipe.contents = σ.stored := by
  show (σ.taken ++ [σ.pipe.head]) ++ σ.pipe.next.contents = σ.stored
  rw [List.append_assoc, List.singleton_append, ← Pipe.contents_next hne, hi.fifo]

theorem PipeInv.takeByte_deliver (hi : PipeInv σ) (hne : σ.pipe.isEmpty = false) :
    PipeInv { σ.takeByte with delivered := σ.delivered ++ [σ.pipe.head] } where
  bound := by
    show σ.takeByte.pipe.contents.length ≤ pipeSize
    have := length_takeByte hne
    have := hi.bound
    omega
  fifo := fifo_takeByte hi hne
  intact h := by
    show σ.delivered ++ [σ.pipe.head] = σ.taken ++ [σ.pipe.head]
    rw [hi.intact h]

theorem PipeInv.takeByte_fault (hi : PipeInv σ) (hne : σ.pipe.isEmpty = false) :
    PipeInv { σ.takeByte with faulted := true } where
  bound := by
    show σ.takeByte.pipe.contents.length ≤ pipeSize
    have := length_takeByte hne
    have := hi.bound
    omega
  fifo := fifo_takeByte hi hne
  intact h := by cases h

/-- The copy loop keeps the invariant, pass by pass. -/
theorem PipeInv.readLoop (hi : PipeInv σ) (dst : Nat → Bool) (i k : Nat) :
    PipeInv (readLoop dst σ i k).2 := by
  induction k generalizing σ i with
  | zero => exact hi
  | succ k ih =>
    simp only [PipeSys.readLoop]
    split_ifs with hemp hdst
    · exact hi
    · exact ih (hi.takeByte_deliver (by simpa using hemp)) (i + 1)
    · exact hi.takeByte_fault (by simpa using hemp)

end PipeSys

theorem PipeSys.reachable_of_run {Pid : Type} [DecidableEq Pid] {σ σ' : PipeSys Pid}
    {es : List (PipeEv Pid)} (hσ : (pipeSys Pid).Reachable σ) (h : σ.run es = some σ') :
    (pipeSys Pid).Reachable σ' := by
  induction es generalizing σ with
  | nil =>
    cases (Option.some.inj h)
    exact hσ
  | cons e es ih =>
    simp only [PipeSys.run] at h
    cases hs : σ.step e with
    | none => rw [hs] at h; cases h
    | some σ₁ =>
      rw [hs, Option.bind_some] at h
      exact ih (.step hσ hs) h

end Xv6.Kernel
