import Xv6.Kernel.Param
import Xv6.Lib.Reach
import Xv6.Lib.Ring
import Xv6.Lib.Count

/-!
# The UART's transmit path (`kernel/uart.c`)

`uart_tx_buf` is a ring of `UART_TX_BUF_SIZE` bytes between two free-running
`uint64` counters: `uart_tx_w` counts the bytes `uartputc` ever stored and
`uart_tx_r` those `uartstart` ever took out. Bytes reach the UART's transmit
holding register `THR` by two paths: `uartstart`, from the buffer, with
`uart_tx_lock` held, and `uartputc_sync`, directly and without the lock. Each
path reads `LSR` and writes `THR` only if `LSR_TX_IDLE` was set.

`uartinit` turns the UART's FIFOs on: `THR` feeds a transmit FIFO,
`LSR_TX_IDLE` is set while that FIFO is empty, and the UART sends the FIFO's
bytes on the line in order. The model keeps the FIFO and the line as lists,
each byte with the path that wrote it (ghost).

A CPU runs at most one of these paths at a time, since `uart_tx_lock` and
`push_off` turn its interrupts off, so each CPU has one place in the code
(`TxAt`). The read of `LSR` and the write of `THR` are separate steps: other
CPUs' writes and the UART's sending come between them. Taking a byte out of
the buffer and writing it to `THR` are one step, since only holders of the lock
touch the buffer. `sleep` is blocking,
so `uartputc` on a full buffer is no step, and `wakeup` changes nothing here.

* `uart_tx_fifo`: in every reachable state, the buffered bytes on the line and
  in the FIFO, then the bytes still in the buffer, are the bytes `uartputc`
  stored, in order; the buffer never holds more than `UART_TX_BUF_SIZE`.
* `uart_fifo_bound`: the transmit FIFO never holds more than `NCPU` bytes,
  fewer than the 16 of the 16550's FIFO: no write to `THR` overruns it.
-/

namespace Xv6.Kernel

open Xv6.Lib

/-- `UART_TX_BUF_SIZE`. -/
def uartTxBufSize : Nat := 32

instance : NeZero uartTxBufSize := ⟨by decide⟩

/-- Where a CPU is in the transmit code. -/
inductive TxAt
  /-- in none of `uartputc`, `uartstart` and `uartputc_sync` -/
  | out
  /-- at the top of `uartstart`'s loop, holding `uart_tx_lock` -/
  | start
  /-- in `uartstart`, having read `LSR_TX_IDLE` set -/
  | startIdle
  /-- in `for (;;)` in `uartputc` after a panic, holding `uart_tx_lock` -/
  | putcHalted
  /-- in `uartputc_sync(c)`, spinning on `LSR_TX_IDLE` -/
  | syncWait (c : UInt8)
  /-- in `uartputc_sync(c)`, having read `LSR_TX_IDLE` set -/
  | syncIdle (c : UInt8)
  /-- in `for (;;)` in `uartputc_sync` after a panic -/
  | syncHalted
  deriving DecidableEq

namespace TxAt

/-- A CPU that holds `uart_tx_lock`. -/
def holdsLock : TxAt → Bool
  | .start | .startIdle | .putcHalted => true
  | _ => false

/-- A CPU that has read `LSR_TX_IDLE` set and not yet written `THR`. -/
def seesIdle : TxAt → Bool
  | .startIdle | .syncIdle _ => true
  | _ => false

end TxAt

/-- The path that wrote a byte to `THR`. -/
inductive TxSrc
  | buffered
  | sync (cpu : Fin nCpu)
  deriving DecidableEq

/-- The byte of a write by `uartstart`. -/
def TxSrc.bufferedByte : TxSrc × UInt8 → Option UInt8
  | (.buffered, c) => some c
  | (.sync _, _) => none

@[simp] theorem TxSrc.bufferedByte_buffered (c : UInt8) : TxSrc.bufferedByte (.buffered, c) = some c :=
  rfl

@[simp] theorem TxSrc.bufferedByte_sync (p : Fin nCpu) (c : UInt8) :
    TxSrc.bufferedByte (.sync p, c) = none :=
  rfl

/-- The driver's transmit state, the UART's transmit side, and the ghost
record of what `uartputc` stored. -/
structure Uart where
  buf : Fin uartTxBufSize → UInt8
  w : UInt64
  r : UInt64
  /-- the CPU holding `uart_tx_lock` -/
  lock : Option (Fin nCpu)
  panicked : Bool
  cpus : Fin nCpu → TxAt
  /-- the transmit FIFO, oldest first -/
  fifo : List (TxSrc × UInt8)
  /-- the bytes sent on the line -/
  line : List (TxSrc × UInt8)
  /-- the bytes `uartputc` stored, in order -/
  accepted : List UInt8

/-- The events of the transmit path. -/
inductive UartEv
  /-- `uartputc(c)` on `cpu` stores `c`, once it holds `uart_tx_lock` -/
  | putc (cpu : Fin nCpu) (c : UInt8)
  /-- `uartintr()` on `cpu` takes `uart_tx_lock` to call `uartstart` -/
  | intr (cpu : Fin nCpu)
  /-- the tests at the top of `uartstart`'s loop -/
  | startTest (cpu : Fin nCpu)
  /-- `uartstart` takes the next byte of the buffer and writes it to `THR` -/
  | startWrite (cpu : Fin nCpu)
  /-- `uartputc_sync(c)` on `cpu` is called -/
  | putcSync (cpu : Fin nCpu) (c : UInt8)
  /-- one read of `LSR` in `uartputc_sync`'s wait -/
  | syncTest (cpu : Fin nCpu)
  /-- `uartputc_sync` writes `THR` and returns -/
  | syncWrite (cpu : Fin nCpu)
  /-- the UART sends the oldest byte of its FIFO -/
  | send
  /-- `panic()` sets `panicked` -/
  | panic

namespace Uart

/-- The state after `uartinit`: the globals zeroed, the FIFO cleared. -/
def init : Uart := ⟨fun _ => 0, 0, 0, none, false, fun _ => .out, [], [], []⟩

/-- The cell of counter `c`: `c % UART_TX_BUF_SIZE`. -/
def cell (c : UInt64) : Fin uartTxBufSize := Fin.ofNat uartTxBufSize c.toNat

/-- The bytes in the buffer, oldest first. -/
def contents (u : Uart) : List UInt8 := cells u.buf u.r.toNat (u.w - u.r).toNat

/-- `uart_tx_w == uart_tx_r + UART_TX_BUF_SIZE`. -/
def isFull (u : Uart) : Bool := u.w == u.r + 32

/-- `(ReadReg(LSR) & LSR_TX_IDLE) != 0`: the transmit FIFO is empty. -/
def txIdle (u : Uart) : Bool := u.fifo.isEmpty

/-- How many CPUs have read `LSR_TX_IDLE` set and not yet written `THR`. -/
def observers (u : Uart) : Nat := count (fun p => (u.cpus p).seesIdle) true

/-- `cpu` moves to `a`. -/
def setCpu (u : Uart) (cpu : Fin nCpu) (a : TxAt) : Uart :=
  { u with cpus := Function.update u.cpus cpu a }

/-- `uart_tx_buf[uart_tx_w % UART_TX_BUF_SIZE] = c; uart_tx_w += 1;`, then
`uartstart()` with the lock held. -/
def store (u : Uart) (cpu : Fin nCpu) (c : UInt8) : Uart :=
  { u.setCpu cpu .start with
    buf := Function.update u.buf (cell u.w) c, w := u.w + 1, lock := some cpu,
    accepted := u.accepted ++ [c] }

/-- `c = uart_tx_buf[uart_tx_r % UART_TX_BUF_SIZE]; uart_tx_r += 1;
WriteReg(THR, c);`, back to the top of the loop. -/
def takeByte (u : Uart) (cpu : Fin nCpu) : Uart :=
  { u.setCpu cpu .start with r := u.r + 1, fifo := u.fifo ++ [(.buffered, u.buf (cell u.r))] }

/-- `uartstart` returns and its caller releases `uart_tx_lock`. -/
def leave (u : Uart) (cpu : Fin nCpu) : Uart := { u.setCpu cpu .out with lock := none }

/-- One event: `none` when it cannot happen now. -/
def step (u : Uart) : UartEv → Option Uart
  | .putc p c =>
    if u.cpus p = .out ∧ u.lock = none then
      if u.panicked then some { u.setCpu p .putcHalted with lock := some p }
      -- a full buffer: `sleep` until `uartstart` makes room
      else if u.isFull then none
      else some (u.store p c)
    else none
  | .intr p =>
    if u.cpus p = .out ∧ u.lock = none then some { u.setCpu p .start with lock := some p } else none
  | .startTest p =>
    if u.cpus p = .start then
      -- an empty buffer (`ReadReg(ISR)`), or a busy `THR`: return
      if u.w = u.r then some (u.leave p)
      else if !u.txIdle then some (u.leave p)
      else some (u.setCpu p .startIdle)
    else none
  | .startWrite p => if u.cpus p = .startIdle then some (u.takeByte p) else none
  | .putcSync p c =>
    if u.cpus p = .out then
      if u.panicked then some (u.setCpu p .syncHalted) else some (u.setCpu p (.syncWait c))
    else none
  | .syncTest p =>
    match u.cpus p with
    | .syncWait c => if u.txIdle then some (u.setCpu p (.syncIdle c)) else some u
    | _ => none
  | .syncWrite p =>
    match u.cpus p with
    | .syncIdle c => some { u.setCpu p .out with fifo := u.fifo ++ [(.sync p, c)] }
    | _ => none
  | .send =>
    match u.fifo with
    | x :: rest => some { u with fifo := rest, line := u.line ++ [x] }
    | [] => none
  | .panic => some { u with panicked := true }

/-- Run a list of events; `none` as soon as one cannot happen. -/
def run (u : Uart) : List UartEv → Option Uart
  | [] => some u
  | e :: es => (u.step e).bind fun u' => u'.run es

end Uart

/-- The transmit path as a transition system. -/
def uartSys : TSys Uart UartEv where
  init u := u = Uart.init
  step u e u' := u.step e = some u'


/-! ## The buffer between the counters -/

namespace Uart

variable {u : Uart} {p : Fin nCpu}

/-- Storing short of a full buffer adds one to `w - r`. -/
theorem dist_succ (h : (u.w - u.r).toNat < uartTxBufSize) :
    (u.w + 1 - u.r).toNat = (u.w - u.r).toNat + 1 := by
  have hr := UInt64.toNat_lt u.r
  have hw := UInt64.toNat_lt u.w
  rw [UInt64.toNat_sub] at h
  simp only [uartTxBufSize] at h
  simp only [UInt64.toNat_sub, UInt64.toNat_add, UInt64.reduceToNat]
  omega

/-- Taking from a nonempty buffer takes one from `w - r`. -/
theorem dist_pred (h : u.w ≠ u.r) : (u.w - u.r).toNat = (u.w - (u.r + 1)).toNat + 1 := by
  have hr := UInt64.toNat_lt u.r
  have hw := UInt64.toNat_lt u.w
  have hne : u.w.toNat ≠ u.r.toNat := fun e => h (UInt64.toNat_inj.mp e)
  simp only [UInt64.toNat_sub, UInt64.toNat_add, UInt64.reduceToNat]
  omega

theorem contents_store (h : (u.w - u.r).toNat < uartTxBufSize) (c : UInt8) :
    (u.store p c).contents = u.contents ++ [c] := by
  have hr := UInt64.toNat_lt u.r
  have hw := UInt64.toNat_lt u.w
  -- the cell of `w` is the cell `w - r` on from `r`, across a wrap of the counters too
  have hcell : u.w.toNat % uartTxBufSize = (u.r.toNat + (u.w - u.r).toNat) % uartTxBufSize := by
    simp only [UInt64.toNat_sub, uartTxBufSize]
    omega
  simp only [contents, store, setCpu]
  rw [dist_succ h]
  exact cells_push_of_mod u.buf hcell h c

theorem contents_takeByte (h : u.w ≠ u.r) :
    u.contents = u.buf (cell u.r) :: (u.takeByte p).contents := by
  have hr := UInt64.toNat_lt u.r
  simp only [contents, takeByte, setCpu]
  rw [dist_pred h, cells_cons]
  congr 1
  apply cells_congr
  simp only [UInt64.toNat_add, UInt64.reduceToNat, uartTxBufSize]
  omega

/-- A buffer not full, with at most `UART_TX_BUF_SIZE` bytes, has room. -/
theorem dist_lt (hfull : u.isFull = false) (hb : (u.w - u.r).toNat ≤ uartTxBufSize) :
    (u.w - u.r).toNat < uartTxBufSize := by
  have hne : u.w ≠ u.r + 32 := by simpa [isFull] using hfull
  have hr := UInt64.toNat_lt u.r
  have hw := UInt64.toNat_lt u.w
  rw [Ne, ← UInt64.toNat_inj, UInt64.toNat_add] at hne
  rw [UInt64.toNat_sub] at hb ⊢
  simp only [uartTxBufSize, UInt64.reduceToNat] at hb hne ⊢
  omega

/-! ## Counting the CPUs about to write `THR` -/

theorem observers_setCpu (u : Uart) (p : Fin nCpu) (a : TxAt) :
    (u.setCpu p a).observers =
      count (Function.update (fun q => (u.cpus q).seesIdle) p a.seesIdle) true := by
  simp only [observers, setCpu]
  congr 1
  funext q
  by_cases hq : q = p
  · subst hq
    simp
  · simp [Function.update_of_ne hq]

/-- A move that keeps the CPU in or out of the count. -/
theorem observers_same {a : TxAt} (h : (u.cpus p).seesIdle = a.seesIdle) :
    (u.setCpu p a).observers = u.observers := by
  rw [observers_setCpu]
  exact count_update_same (by rw [h])

/-- A CPU reading `LSR_TX_IDLE` set joins the count. -/
theorem observers_enter {a : TxAt} (h : (u.cpus p).seesIdle = false) (ha : a.seesIdle = true) :
    (u.setCpu p a).observers = u.observers + 1 := by
  rw [observers_setCpu, ha]
  exact count_update_enter (by simp [h])

/-- A CPU writing `THR` leaves the count. -/
theorem observers_leave {a : TxAt} (h : (u.cpus p).seesIdle = true) (ha : a.seesIdle = false) :
    (u.setCpu p a).observers + 1 = u.observers := by
  rw [observers_setCpu, ha]
  exact count_update_leave h (by simp)

/-- A CPU outside the count leaves room in it. -/
theorem observers_lt (h : (u.cpus p).seesIdle = false) : u.observers < nCpu := by
  have := count_lt_card (f := fun q => (u.cpus q).seesIdle) (i := p) (a := true) (by simp [h])
  simpa [observers] using this

end Uart

/-! ## What each event does -/

namespace Uart

variable {u u' : Uart} {p q : Fin nCpu} {a : TxAt}

@[simp] theorem setCpu_cpus_self (u : Uart) (p : Fin nCpu) (a : TxAt) : (u.setCpu p a).cpus p = a := by
  simp [setCpu]

theorem setCpu_cpus_of_ne (u : Uart) (h : q ≠ p) (a : TxAt) : (u.setCpu p a).cpus q = u.cpus q := by
  simp [setCpu, Function.update_of_ne h]

@[simp] theorem setCpu_buf : (u.setCpu p a).buf = u.buf := rfl
@[simp] theorem setCpu_w : (u.setCpu p a).w = u.w := rfl
@[simp] theorem setCpu_r : (u.setCpu p a).r = u.r := rfl
@[simp] theorem setCpu_lock : (u.setCpu p a).lock = u.lock := rfl
@[simp] theorem setCpu_fifo : (u.setCpu p a).fifo = u.fifo := rfl
@[simp] theorem setCpu_line : (u.setCpu p a).line = u.line := rfl
@[simp] theorem setCpu_accepted : (u.setCpu p a).accepted = u.accepted := rfl

theorem contents_setCpu : (u.setCpu p a).contents = u.contents := rfl

/-- `uart_tx_lock` is held by the CPUs that say so, after `p` moves to `a`
and the lock becomes `l`. -/
theorem held_setCpu {l : Option (Fin nCpu)} (hp : a.holdsLock = true → l = some p)
    (hothers : ∀ q, q ≠ p → (u.cpus q).holdsLock = true → l = some q) :
    ∀ q, ((u.setCpu p a).cpus q).holdsLock = true → l = some q := by
  intro q hq
  by_cases hqp : q = p
  · subst hqp
    exact hp (by simpa using hq)
  · rw [setCpu_cpus_of_ne u hqp] at hq
    exact hothers q hqp hq

end Uart

/-! ## The transmit path is a FIFO -/

/-- What every reachable state satisfies. -/
structure TxInv (u : Uart) : Prop where
  /-- the buffer holds at most `UART_TX_BUF_SIZE` bytes -/
  room : (u.w - u.r).toNat ≤ uartTxBufSize
  /-- the buffered bytes sent or in the FIFO, then the buffer, are the bytes stored -/
  fifo : (u.line ++ u.fifo).filterMap TxSrc.bufferedByte ++ u.contents = u.accepted
  /-- a CPU in `uartstart`, or halted in `uartputc`, holds `uart_tx_lock` -/
  held : ∀ q, (u.cpus q).holdsLock = true → u.lock = some q
  /-- `uartstart` reads `LSR` only with a byte in the buffer -/
  nonempty : ∀ q, u.cpus q = .startIdle → u.w ≠ u.r
  /-- the FIFO and the CPUs about to write `THR` fit in `NCPU` -/
  bound : u.fifo.length + u.observers ≤ nCpu

namespace TxInv

variable {u : Uart} {p : Fin nCpu}

theorem init : TxInv Uart.init where
  room := by decide
  fifo := rfl
  held q h := by simp [Uart.init, TxAt.holdsLock] at h
  nonempty q h := by simp [Uart.init] at h
  bound := by
    have hobs : Uart.init.observers = 0 :=
      count_eq_zero_iff.mpr fun q => by simp [Uart.init, TxAt.seesIdle]
    show [].length + Uart.init.observers ≤ nCpu
    rw [hobs]
    exact Nat.zero_le _

/-- No CPU holds the lock while it is free. -/
theorem not_held (hi : TxInv u) (hfree : u.lock = none) (q : Fin nCpu) :
    (u.cpus q).holdsLock = false := by
  cases h : (u.cpus q).holdsLock
  · rfl
  · simp [hi.held q h] at hfree

/-- Two CPUs holding the lock are one. -/
theorem eq_of_held (hi : TxInv u) {q : Fin nCpu} (hp : (u.cpus p).holdsLock = true)
    (hq : (u.cpus q).holdsLock = true) : q = p := by
  have := (hi.held q hq).symm.trans (hi.held p hp)
  exact Option.some.inj this

/-- A move of `p` to `a` keeps `nonempty` when `a` itself is fine. -/
theorem nonempty_setCpu (hi : TxInv u) {a : TxAt} (hne : a = .startIdle → u.w ≠ u.r) :
    ∀ q, (u.setCpu p a).cpus q = .startIdle → u.w ≠ u.r := by
  intro q hq
  by_cases hqp : q = p
  · subst hqp
    exact hne (by simpa using hq)
  · rw [Uart.setCpu_cpus_of_ne u hqp] at hq
    exact hi.nonempty q hq

/-- `uartputc` stores a byte in a buffer with room. -/
theorem store (hi : TxInv u) (hout : u.cpus p = .out) (hfree : u.lock = none)
    (hfull : u.isFull = false) (c : UInt8) : TxInv (u.store p c) := by
  have hlt := Uart.dist_lt hfull hi.room
  refine ⟨?_, ?_, ?_, ?_, ?_⟩
  · show (u.w + 1 - u.r).toNat ≤ uartTxBufSize
    rw [Uart.dist_succ hlt]
    exact hlt
  · show (u.line ++ u.fifo).filterMap TxSrc.bufferedByte ++ (u.store p c).contents = u.accepted ++ [c]
    rw [Uart.contents_store hlt, ← List.append_assoc, hi.fifo]
  · exact Uart.held_setCpu (fun _ => rfl) fun q _ hq => by simp [hi.not_held hfree q] at hq
  · intro q hq
    by_cases hqp : q = p
    · subst hqp
      simp [Uart.store] at hq
    · rw [show (u.store p c).cpus q = u.cpus q from Uart.setCpu_cpus_of_ne u hqp _] at hq
      have := hi.not_held hfree q
      simp [hq, TxAt.holdsLock] at this
  · show u.fifo.length + (u.setCpu p .start).observers ≤ nCpu
    rw [Uart.observers_same (by simp [hout, TxAt.seesIdle])]
    exact hi.bound

/-- `p` moves to `a` without taking or leaving the lock's holders or the count. -/
theorem move (hi : TxInv u) {a : TxAt} (hlock : a.holdsLock = true → (u.cpus p).holdsLock = true)
    (hseen : (u.cpus p).seesIdle = a.seesIdle) (hne : a = .startIdle → u.w ≠ u.r) :
    TxInv (u.setCpu p a) := by
  refine ⟨hi.room, hi.fifo, Uart.held_setCpu (fun ha => hi.held p (hlock ha))
    fun q _ hq => hi.held q hq, hi.nonempty_setCpu hne, ?_⟩
  rw [Uart.observers_same hseen]
  exact hi.bound

/-- A CPU takes the free lock and moves to `a`. -/
theorem acquire (hi : TxInv u) (hout : u.cpus p = .out) (hfree : u.lock = none) {a : TxAt}
    (ha : a.seesIdle = false) (hns : a ≠ .startIdle) : TxInv { u.setCpu p a with lock := some p } := by
  refine ⟨hi.room, hi.fifo, Uart.held_setCpu (fun _ => rfl)
    fun q _ hq => by simp [hi.not_held hfree q] at hq, hi.nonempty_setCpu (fun h => absurd h hns), ?_⟩
  show u.fifo.length + (u.setCpu p a).observers ≤ nCpu
  rw [Uart.observers_same (by rw [hout, ha]; rfl)]
  exact hi.bound

/-- `uartstart` returns and its caller releases the lock. -/
theorem leave (hi : TxInv u) (hp : u.cpus p = .start) : TxInv (u.leave p) := by
  have hheld : u.lock = some p := hi.held p (by rw [hp]; rfl)
  refine ⟨hi.room, hi.fifo, Uart.held_setCpu (fun h => by simp [TxAt.holdsLock] at h)
    fun q hqp hq => absurd (hi.eq_of_held (by rw [hp]; rfl) hq) hqp,
    hi.nonempty_setCpu (fun h => by cases h), ?_⟩
  show u.fifo.length + (u.setCpu p .out).observers ≤ nCpu
  rw [Uart.observers_same (by rw [hp]; rfl)]
  exact hi.bound

/-- A CPU reads `LSR_TX_IDLE` set, with the FIFO empty, and moves to `a`. -/
theorem observe (hi : TxInv u) {a : TxAt} (hlock : a.holdsLock = true → (u.cpus p).holdsLock = true)
    (hp : (u.cpus p).seesIdle = false) (ha : a.seesIdle = true) (hne : a = .startIdle → u.w ≠ u.r)
    (hidle : u.txIdle = true) : TxInv (u.setCpu p a) := by
  have hempty : u.fifo = [] := List.isEmpty_iff.mp hidle
  refine ⟨hi.room, hi.fifo, Uart.held_setCpu (fun ha => hi.held p (hlock ha))
    fun q _ hq => hi.held q hq, hi.nonempty_setCpu hne, ?_⟩
  -- the FIFO is empty, and `p` was not yet counted
  have hlt := Uart.observers_lt hp
  show u.fifo.length + (u.setCpu p a).observers ≤ nCpu
  rw [Uart.observers_enter hp ha, hempty, List.length_nil]
  omega

/-- `uartstart` takes the next byte of the buffer and writes it to `THR`. -/
theorem takeByte (hi : TxInv u) (hp : u.cpus p = .startIdle) : TxInv (u.takeByte p) := by
  have hne := hi.nonempty p hp
  have hheld : u.lock = some p := hi.held p (by rw [hp]; rfl)
  refine ⟨?_, ?_, ?_, ?_, ?_⟩
  · show (u.w - (u.r + 1)).toNat ≤ uartTxBufSize
    have := Uart.dist_pred hne
    have := hi.room
    omega
  · -- the byte moves from the front of the buffer to the end of the FIFO
    show (u.line ++ (u.fifo ++ [(TxSrc.buffered, u.buf (Uart.cell u.r))])).filterMap TxSrc.bufferedByte ++
      (u.takeByte p).contents = u.accepted
    rw [← hi.fifo, Uart.contents_takeByte (p := p) hne, ← List.append_assoc,
      List.filterMap_append, List.append_assoc]
    rfl
  · exact Uart.held_setCpu (fun _ => hheld) fun q _ hq => hi.held q hq
  · intro q hq
    by_cases hqp : q = p
    · subst hqp
      simp [Uart.takeByte] at hq
    · rw [show (u.takeByte p).cpus q = u.cpus q from Uart.setCpu_cpus_of_ne u hqp _] at hq
      exact absurd (hi.eq_of_held (by rw [hp]; rfl) (by rw [hq]; rfl)) hqp
  · have hleave := Uart.observers_leave (u := u) (p := p) (a := .start) (by rw [hp]; rfl) rfl
    have := hi.bound
    show (u.fifo ++ _).length + (u.setCpu p .start).observers ≤ nCpu
    rw [List.length_append, List.length_singleton]
    omega

/-- `uartputc_sync` writes `THR` and returns. -/
theorem syncWrite (hi : TxInv u) {c : UInt8} (hp : u.cpus p = .syncIdle c) :
    TxInv { u.setCpu p .out with fifo := u.fifo ++ [(.sync p, c)] } := by
  refine ⟨hi.room, ?_, Uart.held_setCpu (fun h => by simp [TxAt.holdsLock] at h)
    fun q _ hq => hi.held q hq, ?_, ?_⟩
  · -- a byte of another path leaves the buffered bytes alone
    show (u.line ++ (u.fifo ++ [(TxSrc.sync p, c)])).filterMap TxSrc.bufferedByte ++ u.contents = u.accepted
    rw [← List.append_assoc, List.filterMap_append]
    simpa only [List.filterMap_cons_none (TxSrc.bufferedByte_sync p c), List.filterMap_nil,
      List.append_nil] using hi.fifo
  · exact hi.nonempty_setCpu (fun h => by cases h)
  · have hleave := Uart.observers_leave (u := u) (p := p) (a := .out) (by rw [hp]; rfl) rfl
    have := hi.bound
    show (u.fifo ++ _).length + (u.setCpu p .out).observers ≤ nCpu
    rw [List.length_append, List.length_singleton]
    omega

/-- The UART sends the oldest byte of its FIFO. -/
theorem send (hi : TxInv u) {x : TxSrc × UInt8} {rest : List (TxSrc × UInt8)}
    (hfifo : u.fifo = x :: rest) : TxInv { u with fifo := rest, line := u.line ++ [x] } := by
  refine ⟨hi.room, ?_, hi.held, hi.nonempty, ?_⟩
  · show (u.line ++ [x] ++ rest).filterMap TxSrc.bufferedByte ++ u.contents = u.accepted
    rw [List.append_assoc, List.singleton_append, ← hfifo]
    exact hi.fifo
  · have := hi.bound
    rw [hfifo, List.length_cons] at this
    exact Nat.le_trans (Nat.add_le_add_right (Nat.le_succ _) _) this

/-- Every event keeps the invariant. -/
theorem step (hi : TxInv u) {e : UartEv} {u' : Uart} (h : u.step e = some u') : TxInv u' := by
  cases e with
  | putc p c =>
    simp only [Uart.step] at h
    split_ifs at h with hin hpanic hfull
    · cases h
      exact hi.acquire hin.1 hin.2 rfl (by decide)
    · cases h
      exact hi.store hin.1 hin.2 (by simpa using hfull) c
  | intr p =>
    simp only [Uart.step] at h
    split_ifs at h with hin
    cases h
    exact hi.acquire hin.1 hin.2 rfl (by decide)
  | startTest p =>
    simp only [Uart.step] at h
    split_ifs at h with hp hempty hbusy
    · cases h
      exact hi.leave hp
    · cases h
      exact hi.leave hp
    · cases h
      exact hi.observe (by rw [hp]; exact fun _ => rfl) (by rw [hp]; rfl) rfl (fun _ => hempty)
        (by simpa using hbusy)
  | startWrite p =>
    simp only [Uart.step] at h
    split_ifs at h with hp
    cases h
    exact hi.takeByte hp
  | putcSync p c =>
    simp only [Uart.step] at h
    split_ifs at h with hp hpanic
    · cases h
      exact hi.move (fun h => by simp [TxAt.holdsLock] at h) (by rw [hp]; rfl) (fun h => by cases h)
    · cases h
      exact hi.move (fun h => by simp [TxAt.holdsLock] at h) (by rw [hp]; rfl) (by simp)
  | syncTest p =>
    simp only [Uart.step] at h
    split at h
    · rename_i c hp
      split_ifs at h with hidle
      · cases h
        exact hi.observe (fun h => by simp [TxAt.holdsLock] at h) (by rw [hp]; rfl) rfl (by simp) hidle
      · cases h
        exact hi
    · cases h
  | syncWrite p =>
    simp only [Uart.step] at h
    split at h
    · rename_i c hp
      cases h
      exact hi.syncWrite hp
    · cases h
  | send =>
    simp only [Uart.step] at h
    split at h
    · rename_i x rest hfifo
      cases h
      exact hi.send hfifo
    · cases h
  | panic =>
    simp only [Uart.step] at h
    cases h
    exact ⟨hi.room, hi.fifo, hi.held, hi.nonempty, hi.bound⟩

end TxInv

theorem Uart.reachable_of_run {u u' : Uart} {es : List UartEv} (hu : uartSys.Reachable u)
    (h : u.run es = some u') : uartSys.Reachable u' := by
  induction es generalizing u with
  | nil =>
    cases h
    exact hu
  | cons e es ih =>
    simp only [Uart.run] at h
    cases hs : u.step e with
    | none =>
      rw [hs] at h
      cases h
    | some u₁ =>
      rw [hs, Option.bind_some] at h
      exact ih (.step hu hs) h

theorem txInv_invariant : uartSys.Invariant TxInv :=
  TSys.Invariant.of_inductive (fun _ h => h ▸ TxInv.init) fun _ _ _ hi h => hi.step h

/-- The buffered path is a FIFO whatever CPUs, interrupts and the UART do: the
bytes `uartstart` has sent on the line or put in the transmit FIFO, then the
bytes still in the buffer, are the bytes `uartputc` stored, in order, and the
buffer never holds more than `UART_TX_BUF_SIZE` bytes. -/
theorem uart_tx_fifo {u : Uart} (hu : uartSys.Reachable u) :
    (u.line ++ u.fifo).filterMap TxSrc.bufferedByte ++ u.contents = u.accepted ∧
      (u.w - u.r).toNat ≤ uartTxBufSize :=
  ⟨(txInv_invariant u hu).fifo, (txInv_invariant u hu).room⟩

/-- CPU `0` writes `a` through the buffer, which `uartstart` hands to the UART;
CPU `1` then writes `b` with `uartputc_sync` once the UART has sent `a`. -/
def twoPathRun : List UartEv :=
  [.putc 0 97, .startTest 0, .startWrite 0, .startTest 0, .putcSync 1 98, .send, .syncTest 1,
    .syncWrite 1]

theorem uart_tx_fifo_two_paths : ∃ u, uartSys.Reachable u ∧ u.line = [(.buffered, 97)] ∧
    u.fifo = [(.sync 1, 98)] ∧
    ((u.line ++ u.fifo).filterMap TxSrc.bufferedByte ++ u.contents = u.accepted ∧
      (u.w - u.r).toNat ≤ uartTxBufSize) := by
  obtain ⟨u, hrun, hline, hfifo⟩ : ∃ u, Uart.init.run twoPathRun = some u ∧
      u.line = [(.buffered, 97)] ∧ u.fifo = [(.sync 1, 98)] :=
    ⟨_, rfl, rfl, rfl⟩
  have hu := Uart.reachable_of_run (.init rfl) hrun
  exact ⟨u, hu, hline, hfifo, uart_tx_fifo hu⟩

/-- The UART's transmit FIFO never holds more than `NCPU` bytes, whatever the
interleaving of `uartstart` and `uartputc_sync` on the CPUs: each writes `THR`
only after reading it empty, and each CPU runs one of them at a time. -/
theorem uart_fifo_bound {u : Uart} (hu : uartSys.Reachable u) : u.fifo.length ≤ nCpu :=
  Nat.le_trans (Nat.le_add_right _ _) (txInv_invariant u hu).bound

theorem uart_fifo_bound_two_paths : ∃ u, uartSys.Reachable u ∧ u.fifo = [(.sync 1, 98)] ∧
    u.fifo.length ≤ nCpu := by
  obtain ⟨u, hrun, hfifo⟩ : ∃ u, Uart.init.run twoPathRun = some u ∧ u.fifo = [(.sync 1, 98)] :=
    ⟨_, rfl, rfl⟩
  have hu := Uart.reachable_of_run (.init rfl) hrun
  exact ⟨u, hu, hfifo, uart_fifo_bound hu⟩

end Xv6.Kernel
