import Xv6.Lib.Reach
import Xv6.Lib.Ring

/-!
# The console line discipline (`kernel/console.c`)

`cons.buf` is a ring of `INPUT_BUF_SIZE` characters with three free-running
`uint` indices: input up to `r` has been read, input up to `w` is committed
(whole lines, an end of file, or a full buffer), and input up to `e` is the
line being edited. `consoleintr` edits and commits, `consoleread` reads
committed input.

`consoleintr` runs with `cons.lock` held and is one step. `consoleread` holds
the lock except while it sleeps for input, so each pass of its loop is one
step (`ConsEv.readLoop`), and other passes and interrupts run in between.

`lineDisc` is the same line discipline on lists (the committed input not yet
read, and the edit line): the ghost fields of `ConsSys` run it beside the
ring, and the invariant says the ring holds what it says.
-/

namespace Xv6.Kernel

open Xv6.Lib

/-- `INPUT_BUF_SIZE`. -/
def inputBufSize : Nat := 128

instance : NeZero inputBufSize := ⟨by decide⟩

theorem inputBufSize_dvd : inputBufSize ∣ 2 ^ 32 := ⟨2 ^ 25, by decide⟩

/-- A character as a byte. -/
def chr (x : Char) : UInt8 := UInt8.ofNat x.toNat

/-- `C(x)`, control-`x`. -/
def C (x : Char) : UInt8 := chr x - chr '@'

/-- `cons`, without its lock. -/
structure Cons where
  buf : Fin inputBufSize → UInt8
  r : UInt32
  w : UInt32
  e : UInt32

namespace Cons

/-- `cons.buf[cons.e++ % INPUT_BUF_SIZE] = c`. -/
def store (cs : Cons) (c : UInt8) : Cons :=
  { cs with buf := Function.update cs.buf (slot inputBufSize cs.e) c, e := cs.e + 1 }

/-- `C('U')`: erase back to `w` or to a newline, one character a pass. Every
pass lowers `e - w`, so `e - w` passes (the fuel `consoleintr` gives) are as
many as the loop can make. -/
def killLine (cs : Cons) : Nat → Cons
  | 0 => cs
  | k + 1 =>
    if cs.e ≠ cs.w ∧ cs.buf (slot inputBufSize (cs.e - 1)) ≠ chr '\n' then
      killLine { cs with e := cs.e - 1 } k
    else cs

/-- The character `cons.buf[cons.r++ % INPUT_BUF_SIZE]` reads. -/
def head (cs : Cons) : UInt8 := cs.buf (slot inputBufSize cs.r)

/-- The console after `cons.r++`. -/
def next (cs : Cons) : Cons := { cs with r := cs.r + 1 }

/-- The committed input not read yet. -/
def unread (cs : Cons) : List UInt8 := window cs.buf cs.r cs.w

/-- The line being edited. -/
def editing (cs : Cons) : List UInt8 := window cs.buf cs.w cs.e

end Cons

/-- `consoleintr(c)`, the console input interrupt handler. -/
def consoleintr (cs : Cons) (c : UInt8) : Cons :=
  if c = C 'P' then cs
  else if c = C 'U' then cs.killLine (cs.e - cs.w).toNat
  else if c = C 'H' ∨ c = 0x7f then
    if cs.e ≠ cs.w then { cs with e := cs.e - 1 } else cs
  else if c ≠ 0 ∧ cs.e - cs.r < UInt32.ofNat inputBufSize then
    let c := if c = chr '\r' then chr '\n' else c
    let cs := cs.store c
    if c = chr '\n' ∨ c = C 'D' ∨ cs.e - cs.r = UInt32.ofNat inputBufSize then
      { cs with w := cs.e }
    else cs
  else cs

/-- A `consoleread(user_dst, dst, n)` call in progress: whether `copyout` to
`dst + k` succeeds, `target`, the loop's `n`, and (ghost) the bytes it has
copied out. `uint target = n` is kept as an integer: `n` is an `int`, and the
loop only runs while `0 < n ≤ target`, where the two agree. -/
structure ReadCall where
  dst : Nat → Bool
  target : Int
  n : Int
  got : List UInt8

/-- What one pass of `consoleread`'s loop does. -/
inductive ReadPass where
  /-- return `v` without taking a character -/
  | ret (v : Int)
  /-- the character at `r` is `C('D')`: take it, and put it back (`cons.r--`)
  iff `pushback`, then return -/
  | eof (pushback : Bool)
  /-- take the character at `r`; its `copyout` fails: return -/
  | fault
  /-- take the character at `r` and copy it out; return iff it is a newline -/
  | copy (nl : Bool)
  /-- no committed input: sleep -/
  | sleeps

/-- One pass of `consoleread`'s loop, by a process whose `killed` flag reads
`killed`. -/
def consolereadPass (cs : Cons) (killed : Bool) (c : ReadCall) : ReadPass :=
  if 0 < c.n then
    if cs.r = cs.w then
      if killed then .ret (-1) else .sleeps
    else if cs.head = C 'D' then .eof (c.n < c.target)
    else if !c.dst (c.target - c.n).toNat then .fault
    else .copy (cs.head = chr '\n')
  else .ret (c.target - c.n)

/-! ## The line discipline on lists -/

/-- `consoleintr` on lists: with `held` committed characters not read yet and
the edit line `line`, input `c` commits the first list and leaves the second
as the edit line. -/
def lineDisc (held : Nat) (line : List UInt8) (c : UInt8) : List UInt8 × List UInt8 :=
  if c = C 'P' then ([], line)
  else if c = C 'U' then ([], [])
  else if c = C 'H' ∨ c = 0x7f then ([], line.dropLast)
  else if c ≠ 0 ∧ held + line.length < inputBufSize then
    let c := if c = chr '\r' then chr '\n' else c
    if c = chr '\n' ∨ c = C 'D' ∨ held + line.length + 1 = inputBufSize then (line ++ [c], [])
    else ([], line ++ [c])
  else ([], line)

/-- A finished `consoleread` call: the characters it took out of the buffer,
those it copied out, and its return value. -/
structure ReadResult where
  took : List UInt8
  got : List UInt8
  ret : Int

/-- The console and the processes reading it, with ghost history. -/
structure ConsSys (Pid : Type) where
  cons : Cons
  reading : Pid → Option ReadCall
  killed : Pid → Bool
  /-- every character delivered to `consoleintr` -/
  typed : List UInt8
  /-- every character `lineDisc` committed, in order -/
  committed : List UInt8
  /-- `lineDisc`'s edit line -/
  line : List UInt8
  /-- every character `consoleread` took and kept, in order -/
  taken : List UInt8
  /-- every character `consoleread` copied out, in order -/
  delivered : List UInt8
  /-- the finished `consoleread` calls, in order -/
  results : List ReadResult
  /-- some `copyout` of `consoleread` has failed -/
  faulted : Bool

/-- The events of the console. -/
inductive ConsEv (Pid : Type) where
  /-- `uartintr` calls `consoleintr(c)` -/
  | intr (c : UInt8)
  /-- `p` calls `consoleread(user_dst, dst, n)`; `copyout` to `dst + k`
  succeeds iff `dst k` -/
  | read (p : Pid) (dst : Nat → Bool) (n : Int)
  /-- one pass of `p`'s `consoleread` loop -/
  | readLoop (p : Pid)
  | kill (p : Pid)

namespace ConsSys

variable {Pid : Type} [DecidableEq Pid]

/-- The console after `consoleinit`, with the buffer's initial `buf`. -/
def init (buf : Fin inputBufSize → UInt8) : ConsSys Pid :=
  ⟨⟨buf, 0, 0, 0⟩, fun _ => none, fun _ => false, [], [], [], [], [], [], false⟩

/-- `consoleintr(c)`, with `lineDisc` run beside it. -/
def intr (σ : ConsSys Pid) (c : UInt8) : ConsSys Pid :=
  let d := lineDisc (σ.committed.length - σ.taken.length) σ.line c
  { σ with cons := consoleintr σ.cons c, typed := σ.typed ++ [c],
           committed := σ.committed ++ d.1, line := d.2 }

/-- The end of `p`'s `consoleread` call `c`, returning `v`, after it took
`last` beyond the characters it copied out. -/
def finishRead (σ : ConsSys Pid) (p : Pid) (c : ReadCall) (last : List UInt8) (v : Int) :
    ConsSys Pid :=
  { σ with reading := Function.update σ.reading p none,
           results := σ.results ++ [⟨c.got ++ last, c.got, v⟩] }

/-- `cons.r++` of the character at `r`, recorded in `taken`. -/
def takeChar (σ : ConsSys Pid) : ConsSys Pid :=
  { σ with cons := σ.cons.next, taken := σ.taken ++ [σ.cons.head] }

/-- One pass of `p`'s `consoleread` loop. -/
def readPass (σ : ConsSys Pid) (p : Pid) (c : ReadCall) : Option (ConsSys Pid) :=
  match consolereadPass σ.cons (σ.killed p) c with
  | .ret v => some (σ.finishRead p c [] v)
  | .eof true =>
    -- `cons.r++` then `cons.r--`
    some ({ σ with cons := { σ.cons.next with r := σ.cons.next.r - 1 } }.finishRead p c []
      (c.target - c.n))
  | .eof false => some (σ.takeChar.finishRead p c [σ.cons.head] (c.target - c.n))
  | .fault =>
    some ({ σ.takeChar with faulted := true }.finishRead p c [σ.cons.head] (c.target - c.n))
  | .copy nl =>
    let c' := { c with n := c.n - 1, got := c.got ++ [σ.cons.head] }
    let σ' := { σ.takeChar with delivered := σ.delivered ++ [σ.cons.head] }
    if nl then some (σ'.finishRead p c' [] (c'.target - c'.n))
    else some { σ' with reading := Function.update σ.reading p (some c') }
  | .sleeps => none

/-- One event: `none` when it cannot happen now. -/
def step (σ : ConsSys Pid) : ConsEv Pid → Option (ConsSys Pid)
  | .intr c => some (σ.intr c)
  | .read p dst n =>
    match σ.reading p with
    | some _ => none
    | none => some { σ with reading := Function.update σ.reading p (some ⟨dst, n, n, []⟩) }
  | .readLoop p =>
    match σ.reading p with
    | none => none
    | some c => σ.readPass p c
  | .kill p => some { σ with killed := Function.update σ.killed p true }

/-- Run a list of events; `none` as soon as one cannot happen. -/
def run (σ : ConsSys Pid) : List (ConsEv Pid) → Option (ConsSys Pid)
  | [] => some σ
  | e :: es => (σ.step e).bind fun σ' => σ'.run es

end ConsSys

/-! ## `consoleintr` keeps the ring and `lineDisc` in step -/

namespace Cons

/-- The ring's edit line is `line`, after the committed input and within the
buffer; neither a newline nor a `C('D')` is in it, since either commits. -/
structure Holds (cs : Cons) (line : List UInt8) : Prop where
  w_le_e : (cs.w - cs.r).toNat ≤ (cs.e - cs.r).toNat
  e_le : (cs.e - cs.r).toNat ≤ inputBufSize
  editing_eq : cs.editing = line
  no_nl : chr '\n' ∉ line
  no_eof : C 'D' ∉ line

variable {cs : Cons} {line : List UInt8}

theorem Holds.e_sub_r (h : cs.Holds line) :
    (cs.e - cs.r).toNat = (cs.w - cs.r).toNat + line.length := by
  rw [toNat_sub_eq_add h.w_le_e, ← h.editing_eq, editing, length_window]

/-- `consoleintr`'s room test, on the lengths `lineDisc` sees. -/
theorem Holds.room_iff (h : cs.Holds line) :
    cs.e - cs.r < UInt32.ofNat inputBufSize ↔ (cs.w - cs.r).toNat + line.length < inputBufSize := by
  rw [UInt32.lt_iff_toNat_lt, ← h.e_sub_r]
  rfl

/-- The `C('U')` loop runs down to `w` when no newline is being edited. -/
theorem killLine_of_not_mem (cs : Cons) (h : chr '\n' ∉ cs.editing) :
    cs.killLine (cs.e - cs.w).toNat = { cs with e := cs.w } := by
  generalize hk : (cs.e - cs.w).toNat = k
  induction k generalizing cs with
  | zero =>
    have he : cs.e = cs.w := by
      rw [← UInt32.toNat_inj, UInt32.toNat_sub] at *
      have := UInt32.toNat_lt cs.e
      have := UInt32.toNat_lt cs.w
      omega
    obtain ⟨buf, r, w, e⟩ := cs
    simp only at he
    subst he
    rfl
  | succ k ih =>
    have hne : cs.w ≠ cs.e := by
      intro he
      rw [he, UInt32.sub_self] at hk
      simp at hk
    -- the last character being edited is the one `e - 1` indexes
    have hsplit := window_succ_right inputBufSize_dvd cs.buf (r := cs.w) (w := cs.e - 1)
      (by simp only [UInt32.toNat_sub, UInt32.reduceToNat] at hk ⊢; omega)
    rw [UInt32.sub_add_cancel] at hsplit
    have hlast : cs.buf (slot inputBufSize (cs.e - 1)) ≠ chr '\n' := by
      intro heq
      apply h
      rw [editing, hsplit, heq]
      exact List.mem_concat_self
    rw [killLine, if_pos ⟨Ne.symm hne, hlast⟩]
    apply ih
    · intro hm
      apply h
      rw [editing, hsplit]
      exact List.mem_append_left _ hm
    · simp only [UInt32.toNat_sub, UInt32.reduceToNat] at hk ⊢
      omega

theorem Holds.killLine (h : cs.Holds line) : { cs with e := cs.w }.Holds [] where
  w_le_e := le_rfl
  e_le := le_trans h.w_le_e h.e_le
  editing_eq := window_self _ _
  no_nl := List.not_mem_nil
  no_eof := List.not_mem_nil

theorem Holds.erase (h : cs.Holds line) (hne : cs.e ≠ cs.w) :
    { cs with e := cs.e - 1 }.Holds line.dropLast where
  w_le_e := by
    have := h.w_le_e
    have hne' : cs.e.toNat ≠ cs.w.toNat := fun he => hne (UInt32.toNat_inj.mp he)
    simp only [UInt32.toNat_sub, UInt32.reduceToNat] at this ⊢
    have := UInt32.toNat_lt cs.e
    have := UInt32.toNat_lt cs.w
    have := UInt32.toNat_lt cs.r
    omega
  e_le := by
    have := h.e_le
    have := h.w_le_e
    have hne' : cs.e.toNat ≠ cs.w.toNat := fun he => hne (UInt32.toNat_inj.mp he)
    simp only [UInt32.toNat_sub, UInt32.reduceToNat] at *
    have := UInt32.toNat_lt cs.e
    have := UInt32.toNat_lt cs.w
    have := UInt32.toNat_lt cs.r
    omega
  editing_eq := by
    show window cs.buf cs.w (cs.e - 1) = line.dropLast
    rw [window_dropLast inputBufSize_dvd _ (Ne.symm hne), ← h.editing_eq, editing]
  no_nl hm := h.no_nl ((List.dropLast_sublist _).subset hm)
  no_eof hm := h.no_eof ((List.dropLast_sublist _).subset hm)

section Store

variable (h : cs.Holds line) (hroom : (cs.w - cs.r).toNat + line.length < inputBufSize)
include h hroom

theorem Holds.e_sub_r_store (c : UInt8) :
    ((cs.store c).e - cs.r).toNat = (cs.w - cs.r).toNat + line.length + 1 := by
  have he := h.e_sub_r
  have hlt : (cs.e - cs.r).toNat + 1 < 2 ^ 32 := by
    simp only [inputBufSize] at hroom
    omega
  show (cs.e + 1 - cs.r).toNat = _
  rw [toNat_succ_sub hlt, he]

theorem Holds.unread_store (c : UInt8) : (cs.store c).unread = cs.unread :=
  window_update_of_lt inputBufSize_dvd cs.buf h.w_le_e (h.e_sub_r ▸ hroom) c

theorem Holds.editing_store (c : UInt8) : (cs.store c).editing = line ++ [c] := by
  have hlt : (cs.e - cs.w).toNat < inputBufSize := by
    have := h.e_sub_r
    rw [toNat_sub_eq_add h.w_le_e] at this
    omega
  show window (Function.update cs.buf (slot inputBufSize cs.e) c) cs.w (cs.e + 1) = line ++ [c]
  rw [window_push inputBufSize_dvd cs.buf hlt (by decide), ← h.editing_eq, editing]

/-- Storing a character that commits: the whole edit line joins the
committed input. -/
theorem Holds.store_commit (c : UInt8) :
    { cs.store c with w := (cs.store c).e }.unread = cs.unread ++ (line ++ [c]) ∧
      { cs.store c with w := (cs.store c).e }.Holds [] := by
  have hstore := h.e_sub_r_store hroom c
  constructor
  · show window (cs.store c).buf cs.r (cs.store c).e = _
    rw [window_append inputBufSize_dvd _ (w := cs.w) (by rw [hstore]; omega),
      ← h.unread_store hroom c, ← h.editing_store hroom c]
    rfl
  · refine ⟨le_rfl, ?_, window_self _ _, List.not_mem_nil, List.not_mem_nil⟩
    show ((cs.store c).e - cs.r).toNat ≤ inputBufSize
    rw [hstore]
    omega

/-- Storing a character that does not commit: it joins the edit line. -/
theorem Holds.store_edit {c : UInt8} (hnl : c ≠ chr '\n') (heof : c ≠ C 'D') :
    (cs.store c).Holds (line ++ [c]) where
  w_le_e := by
    show (cs.w - cs.r).toNat ≤ ((cs.store c).e - cs.r).toNat
    rw [h.e_sub_r_store hroom c]
    omega
  e_le := by
    show ((cs.store c).e - cs.r).toNat ≤ inputBufSize
    rw [h.e_sub_r_store hroom c]
    omega
  editing_eq := h.editing_store hroom c
  no_nl hm := by
    rcases List.mem_append.mp hm with hm | hm
    · exact h.no_nl hm
    · exact hnl (List.mem_singleton.mp hm).symm
  no_eof hm := by
    rcases List.mem_append.mp hm with hm | hm
    · exact h.no_eof hm
    · exact heof (List.mem_singleton.mp hm).symm

/-- `consoleintr`'s full test, on the lengths `lineDisc` sees. -/
theorem Holds.full_iff (c : UInt8) :
    (cs.store c).e - (cs.store c).r = UInt32.ofNat inputBufSize ↔
      (cs.w - cs.r).toNat + line.length + 1 = inputBufSize := by
  rw [← UInt32.toNat_inj, show (cs.store c).r = cs.r from rfl, h.e_sub_r_store hroom c]
  rfl

end Store

end Cons

/-- `consoleintr` implements `lineDisc`: it never moves `r`, it only appends
to the committed input (so no edit reaches a character at or before `w`),
and the new edit line is `lineDisc`'s. -/
theorem Cons.Holds.intr {cs : Cons} {line : List UInt8} (h : cs.Holds line) (c : UInt8) :
    (consoleintr cs c).r = cs.r ∧
      (consoleintr cs c).unread = cs.unread ++ (lineDisc (cs.w - cs.r).toNat line c).1 ∧
      (consoleintr cs c).Holds (lineDisc (cs.w - cs.r).toNat line c).2 := by
  unfold consoleintr lineDisc
  by_cases hP : c = C 'P'
  · -- `procdump()` only
    rw [if_pos hP, if_pos hP, List.append_nil]
    exact ⟨rfl, rfl, h⟩
  rw [if_neg hP, if_neg hP]
  by_cases hU : c = C 'U'
  · rw [if_pos hU, if_pos hU, List.append_nil, Cons.killLine_of_not_mem cs (h.editing_eq ▸ h.no_nl)]
    exact ⟨rfl, rfl, h.killLine⟩
  rw [if_neg hU, if_neg hU]
  by_cases hH : c = C 'H' ∨ c = 0x7f
  · rw [if_pos hH, if_pos hH, List.append_nil]
    by_cases he : cs.e = cs.w
    · -- nothing to erase: the edit line is empty
      have hnil : line = [] := by rw [← h.editing_eq, Cons.editing, he, window_self]
      rw [if_neg (not_not_intro he), hnil, List.dropLast_nil]
      exact ⟨rfl, rfl, hnil ▸ h⟩
    · rw [if_pos he]
      exact ⟨rfl, rfl, h.erase he⟩
  rw [if_neg hH, if_neg hH]
  by_cases hin : c ≠ 0 ∧ (cs.w - cs.r).toNat + line.length < inputBufSize
  · have hin' : c ≠ 0 ∧ cs.e - cs.r < UInt32.ofNat inputBufSize := ⟨hin.1, h.room_iff.mpr hin.2⟩
    rw [if_pos hin', if_pos hin]
    -- the stored character: carriage return becomes newline
    generalize (if c = chr '\r' then chr '\n' else c) = c'
    simp only [h.full_iff hin.2 c']
    by_cases hcommit : c' = chr '\n' ∨ c' = C 'D' ∨
        (cs.w - cs.r).toNat + line.length + 1 = inputBufSize
    · rw [if_pos hcommit, if_pos hcommit]
      obtain ⟨hunread, hholds⟩ := h.store_commit hin.2 c'
      exact ⟨rfl, hunread, hholds⟩
    · rw [if_neg hcommit, if_neg hcommit, List.append_nil]
      simp only [not_or] at hcommit
      obtain ⟨hnl, heof, -⟩ := hcommit
      exact ⟨rfl, h.unread_store hin.2 c', h.store_edit hin.2 hnl heof⟩
  · have hin' : ¬(c ≠ 0 ∧ cs.e - cs.r < UInt32.ofNat inputBufSize) := by rwa [h.room_iff]
    rw [if_neg hin', if_neg hin, List.append_nil]
    exact ⟨rfl, rfl, h⟩

/-- The console as a transition system. -/
def consSys (Pid : Type) [DecidableEq Pid] : TSys (ConsSys Pid) (ConsEv Pid) where
  init σ := ∃ buf, σ = ConsSys.init buf
  step σ e σ' := σ.step e = some σ'

/-! ## What a pass of `consoleread` can do -/

section Pass

variable {cs : Cons} {killed : Bool} {c : ReadCall}

theorem consolereadPass_ret {v : Int} (h : consolereadPass cs killed c = .ret v) :
    v = -1 ∨ v = c.target - c.n := by
  unfold consolereadPass at h
  split_ifs at h <;> cases h
  · exact .inl rfl
  · exact .inr rfl

theorem consolereadPass_eof {b : Bool} (h : consolereadPass cs killed c = .eof b) :
    cs.r ≠ cs.w ∧ cs.head = C 'D' ∧ (b = true ↔ c.n < c.target) := by
  unfold consolereadPass at h
  split_ifs at h with hn hrw hk hd hf
  cases h
  exact ⟨hrw, hd, decide_eq_true_iff⟩

theorem consolereadPass_fault (h : consolereadPass cs killed c = .fault) :
    cs.r ≠ cs.w ∧ cs.head ≠ C 'D' := by
  unfold consolereadPass at h
  split_ifs at h with hn hrw hk hd hf
  cases h
  exact ⟨hrw, hd⟩

theorem consolereadPass_copy {nl : Bool} (h : consolereadPass cs killed c = .copy nl) :
    cs.r ≠ cs.w ∧ cs.head ≠ C 'D' ∧ (nl = true ↔ cs.head = chr '\n') := by
  unfold consolereadPass at h
  split_ifs at h with hn hrw hk hd hf
  cases h
  exact ⟨hrw, hd, decide_eq_true_iff⟩

end Pass

namespace Cons

variable {cs : Cons} {line : List UInt8}

theorem unread_next (hne : cs.r ≠ cs.w) : cs.unread = cs.head :: cs.next.unread :=
  window_pop inputBufSize_dvd cs.buf hne

/-- `cons.r++` then `cons.r--` changes nothing. -/
theorem next_pushback (cs : Cons) : { cs.next with r := cs.next.r - 1 } = cs := by
  show { cs with r := cs.r + 1 - 1 } = cs
  rw [UInt32.add_sub_cancel]

theorem Holds.next (h : cs.Holds line) (hne : cs.r ≠ cs.w) : cs.next.Holds line := by
  have hne' : cs.r.toNat ≠ cs.w.toNat := fun he => hne (UInt32.toNat_inj.mp he)
  have hw := h.w_le_e
  have he := h.e_le
  refine ⟨?_, ?_, h.editing_eq, h.no_nl, h.no_eof⟩
  all_goals
    show _ ≤ _
    simp only [Cons.next, UInt32.toNat_sub, UInt32.toNat_add, UInt32.reduceToNat] at hw he ⊢
    have := UInt32.toNat_lt cs.r
    have := UInt32.toNat_lt cs.w
    have := UInt32.toNat_lt cs.e
    simp only [inputBufSize] at he ⊢
    omega

end Cons

/-! ## The console's invariant -/

namespace ConsSys

variable {Pid : Type} {σ : ConsSys Pid}

/-- What every reachable state satisfies: the ring holds the committed input
not read yet and `lineDisc`'s edit line; readers got every character they
took, less the `C('D')`s, unless a `copyout` failed; a call in progress has
copied out no newline and no `C('D')`; and every finished call returned what
it copied out (or `-1`), at most one line, with a `C('D')` taken only as the
one character of its read. -/
structure ConsInv (σ : ConsSys Pid) : Prop where
  holds : σ.cons.Holds σ.line
  fifo : σ.taken ++ σ.cons.unread = σ.committed
  intact : σ.faulted = false → σ.delivered = σ.taken.filter (· != C 'D')
  calls : ∀ p c, σ.reading p = some c →
    c.target - c.n = c.got.length ∧ chr '\n' ∉ c.got ∧ C 'D' ∉ c.got
  results : ∀ res ∈ σ.results,
    (res.ret = -1 ∨ res.ret = res.got.length) ∧ res.got <+: res.took ∧ C 'D' ∉ res.got ∧
      chr '\n' ∉ res.got.dropLast ∧ (C 'D' ∈ res.took → res.took = [C 'D'])

theorem ConsInv.held_eq (hi : ConsInv σ) :
    σ.committed.length - σ.taken.length = (σ.cons.w - σ.cons.r).toNat := by
  rw [← hi.fifo, List.length_append, Nat.add_sub_cancel_left, Cons.unread, length_window]

theorem ConsInv.init (buf : Fin inputBufSize → UInt8) : ConsInv (ConsSys.init buf : ConsSys Pid) where
  holds := ⟨le_rfl, show ((0 : UInt32) - 0).toNat ≤ inputBufSize by decide, window_self _ _,
    List.not_mem_nil, List.not_mem_nil⟩
  fifo := window_self _ _
  intact _ := rfl
  calls _ _ h := by cases h
  results _ h := by cases h

theorem ConsInv.intr (hi : ConsInv σ) (c : UInt8) : ConsInv (σ.intr c) := by
  obtain ⟨-, hunread, hholds⟩ := hi.holds.intr c
  rw [← hi.held_eq] at hunread hholds
  refine ⟨hholds, ?_, hi.intact, hi.calls, hi.results⟩
  show σ.taken ++ (consoleintr σ.cons c).unread = σ.committed ++ _
  rw [hunread, ← List.append_assoc, hi.fifo]

theorem ConsInv.takeChar (hi : ConsInv σ) (hne : σ.cons.r ≠ σ.cons.w) :
    σ.takeChar.cons.Holds σ.takeChar.line ∧
      σ.takeChar.taken ++ σ.takeChar.cons.unread = σ.takeChar.committed := by
  refine ⟨hi.holds.next hne, ?_⟩
  show (σ.taken ++ [σ.cons.head]) ++ σ.cons.next.unread = σ.committed
  rw [List.append_assoc, List.singleton_append, ← Cons.unread_next hne, hi.fifo]

theorem ConsInv.takeChar_eof (hi : ConsInv σ) (hne : σ.cons.r ≠ σ.cons.w)
    (hd : σ.cons.head = C 'D') : ConsInv σ.takeChar := by
  obtain ⟨hholds, hfifo⟩ := hi.takeChar hne
  refine ⟨hholds, hfifo, fun hf => ?_, hi.calls, hi.results⟩
  show σ.delivered = (σ.taken ++ [σ.cons.head]).filter (· != C 'D')
  rw [List.filter_append, hd, hi.intact hf]
  simp

theorem ConsInv.takeChar_fault (hi : ConsInv σ) (hne : σ.cons.r ≠ σ.cons.w) :
    ConsInv { σ.takeChar with faulted := true } := by
  obtain ⟨hholds, hfifo⟩ := hi.takeChar hne
  exact ⟨hholds, hfifo, (fun hf => by cases hf), hi.calls, hi.results⟩

theorem ConsInv.takeChar_copy (hi : ConsInv σ) (hne : σ.cons.r ≠ σ.cons.w)
    (hd : σ.cons.head ≠ C 'D') :
    ConsInv { σ.takeChar with delivered := σ.delivered ++ [σ.cons.head] } := by
  obtain ⟨hholds, hfifo⟩ := hi.takeChar hne
  refine ⟨hholds, hfifo, fun hf => ?_, hi.calls, hi.results⟩
  show σ.delivered ++ [σ.cons.head] = (σ.taken ++ [σ.cons.head]).filter (· != C 'D')
  rw [List.filter_append, hi.intact hf]
  simp [hd]

variable [DecidableEq Pid]

/-- A call `c` in progress that has copied out no newline and no `C('D')`. -/
theorem ConsInv.setCall (hi : ConsInv σ) {p : Pid} {c : ReadCall}
    (hc : c.target - c.n = c.got.length ∧ chr '\n' ∉ c.got ∧ C 'D' ∉ c.got) :
    ConsInv { σ with reading := Function.update σ.reading p (some c) } := by
  refine ⟨hi.holds, hi.fifo, hi.intact, fun q d hq => ?_, hi.results⟩
  change Function.update σ.reading p (some c) q = some d at hq
  by_cases hqp : q = p
  · subst hqp
    rw [Function.update_self, Option.some.injEq] at hq
    exact hq ▸ hc
  · rw [Function.update_of_ne hqp] at hq
    exact hi.calls q d hq

theorem ConsInv.finishRead (hi : ConsInv σ) {p : Pid} {c : ReadCall} {last : List UInt8} {v : Int}
    (hv : v = -1 ∨ v = c.got.length) (hd : C 'D' ∉ c.got) (hn : chr '\n' ∉ c.got.dropLast)
    (hlast : C 'D' ∈ c.got ++ last → c.got ++ last = [C 'D']) :
    ConsInv (σ.finishRead p c last v) := by
  refine ⟨hi.holds, hi.fifo, hi.intact, fun q d hq => ?_, fun res hres => ?_⟩
  · change Function.update σ.reading p none q = some d at hq
    by_cases hqp : q = p
    · subst hqp
      rw [Function.update_self] at hq
      cases hq
    · rw [Function.update_of_ne hqp] at hq
      exact hi.calls q d hq
  · rcases List.mem_append.mp hres with hres | hres
    · exact hi.results res hres
    · rw [List.mem_singleton.mp hres]
      exact ⟨hv, List.prefix_append _ _, hd, hn, hlast⟩

/-- Each pass of `consoleread` keeps the invariant. -/
theorem ConsInv.readPass (hi : ConsInv σ) {p : Pid} {c : ReadCall} (hc : σ.reading p = some c)
    {σ' : ConsSys Pid} (h : σ.readPass p c = some σ') : ConsInv σ' := by
  obtain ⟨hlen, hnl, hd⟩ := hi.calls p c hc
  have hnl' : chr '\n' ∉ c.got.dropLast := fun hm => hnl ((List.dropLast_sublist _).subset hm)
  unfold ConsSys.readPass at h
  split at h
  · -- returns without taking a character: `n <= 0`, or killed while waiting
    rename_i v hpass
    cases h
    refine hi.finishRead ?_ hd hnl' (fun hm => absurd (by simpa using hm) hd)
    rcases consolereadPass_ret hpass with rfl | rfl
    · exact .inl rfl
    · exact .inr hlen
  · -- `C('D')` after copied characters: put back
    rename_i hpass
    cases h
    rw [Cons.next_pushback]
    exact hi.finishRead (.inr hlen) hd hnl' (fun hm => absurd (by simpa using hm) hd)
  · -- `C('D')` first: taken, and the call returns 0
    rename_i hpass
    cases h
    obtain ⟨hne, hD, hpush⟩ := consolereadPass_eof hpass
    have hnil : c.got = [] := by
      have : ¬c.n < c.target := fun hlt => absurd (hpush.mpr hlt) Bool.false_ne_true
      rw [← List.length_eq_zero_iff]
      omega
    refine (hi.takeChar_eof hne hD).finishRead (.inr hlen) hd hnl' (fun _ => ?_)
    rw [hnil, hD]
    rfl
  · -- a failed `copyout`: the character is taken and lost
    rename_i hpass
    cases h
    obtain ⟨hne, hD⟩ := consolereadPass_fault hpass
    refine (hi.takeChar_fault hne).finishRead (.inr hlen) hd hnl' (fun hm => ?_)
    rcases List.mem_append.mp hm with hm | hm
    · exact absurd hm hd
    · exact absurd (List.mem_singleton.mp hm).symm hD
  · -- a character copied out
    rename_i nl hpass
    obtain ⟨hne, hD, hnlc⟩ := consolereadPass_copy hpass
    have hd' : C 'D' ∉ c.got ++ [σ.cons.head] := by
      intro hm
      rcases List.mem_append.mp hm with hm | hm
      · exact hd hm
      · exact hD (List.mem_singleton.mp hm).symm
    have hlen' : c.target - (c.n - 1) = (c.got ++ [σ.cons.head]).length := by
      rw [List.length_append, List.length_singleton]
      omega
    cases nl with
    | true =>
      -- a newline ends the call
      cases h
      refine (hi.takeChar_copy hne hD).finishRead (.inr hlen') hd' ?_
        (fun hm => absurd (by simpa using hm) hd')
      rw [List.dropLast_concat]
      exact hnl
    | false =>
      cases h
      refine (hi.takeChar_copy hne hD).setCall ⟨hlen', fun hm => ?_, hd'⟩
      rcases List.mem_append.mp hm with hm | hm
      · exact hnl hm
      · exact Bool.false_ne_true (hnlc.mpr (List.mem_singleton.mp hm).symm)
  · cases h

theorem step_read {p : Pid} {dst : Nat → Bool} {n : Int} {σ' : ConsSys Pid}
    (h : σ.step (.read p dst n) = some σ') :
    σ' = { σ with reading := Function.update σ.reading p (some ⟨dst, n, n, []⟩) } := by
  simp only [step] at h
  split at h
  · cases h
  · exact (Option.some.inj h).symm

theorem step_readLoop {p : Pid} {σ' : ConsSys Pid} (h : σ.step (.readLoop p) = some σ') :
    ∃ c, σ.reading p = some c ∧ σ.readPass p c = some σ' := by
  simp only [step] at h
  split at h
  · cases h
  · rename_i c hc
    exact ⟨c, hc, h⟩

end ConsSys

open ConsSys in
theorem consInv_invariant {Pid : Type} [DecidableEq Pid] :
    (consSys Pid).Invariant ConsInv := by
  apply TSys.Invariant.of_inductive
  · rintro σ ⟨buf, rfl⟩
    exact ConsInv.init buf
  · intro σ e σ' hi h
    cases e with
    | intr c =>
      cases (Option.some.inj h)
      exact hi.intr c
    | read p dst n =>
      rw [step_read h]
      refine hi.setCall ⟨?_, List.not_mem_nil, List.not_mem_nil⟩
      show n - n = 0
      omega
    | readLoop p =>
      obtain ⟨c, hc, hpass⟩ := step_readLoop h
      exact hi.readPass hc hpass
    | kill p =>
      cases (Option.some.inj h)
      exact ⟨hi.holds, hi.fifo, hi.intact, hi.calls, hi.results⟩

theorem console_line_discipline (Pid : Type) [DecidableEq Pid] :
    (consSys Pid).Invariant (fun σ =>
      (σ.cons.w - σ.cons.r).toNat ≤ (σ.cons.e - σ.cons.r).toNat ∧
      (σ.cons.e - σ.cons.r).toNat ≤ inputBufSize ∧
      σ.taken ++ σ.cons.unread = σ.committed ∧
      σ.cons.editing = σ.line ∧
      (σ.faulted = false → σ.delivered = σ.taken.filter (· != C 'D')) ∧
      ∀ res ∈ σ.results,
        (res.ret = -1 ∨ res.ret = res.got.length) ∧ res.got <+: res.took ∧ C 'D' ∉ res.got ∧
          chr '\n' ∉ res.got.dropLast ∧ (C 'D' ∈ res.took → res.took = [C 'D'])) ∧
    ∀ σ, (consSys Pid).Reachable σ → ∀ c,
      (consoleintr σ.cons c).r = σ.cons.r ∧ σ.cons.unread <+: (consoleintr σ.cons c).unread := by
  refine ⟨TSys.Invariant.mono consInv_invariant fun σ hi => ?_, fun σ hσ c => ?_⟩
  · exact ⟨hi.holds.w_le_e, hi.holds.e_le, hi.fifo, hi.holds.editing_eq, hi.intact, hi.results⟩
  · -- the edits `consoleintr` makes only ever append to the committed input
    obtain ⟨hr, hunread, -⟩ := (consInv_invariant σ hσ).holds.intr c
    exact ⟨hr, hunread ▸ List.prefix_append _ _⟩

theorem ConsSys.reachable_of_run {Pid : Type} [DecidableEq Pid] {σ σ' : ConsSys Pid}
    {es : List (ConsEv Pid)} (hσ : (consSys Pid).Reachable σ) (h : σ.run es = some σ') :
    (consSys Pid).Reachable σ' := by
  induction es generalizing σ with
  | nil =>
    cases (Option.some.inj h)
    exact hσ
  | cons e es ih =>
    simp only [ConsSys.run] at h
    cases hs : σ.step e with
    | none => rw [hs] at h; cases h
    | some σ₁ =>
      rw [hs, Option.bind_some] at h
      exact ih (.step hσ hs) h

/-- The committed input as the claim words it: the typed characters after
backspace and control-U editing, carriage return mapped to newline, committed
at each newline (which is data) or control-D (which is not). -/
def claimedInput (line : List UInt8) : List UInt8 → List UInt8
  | [] => []
  | c :: cs =>
    if c = C 'U' then claimedInput [] cs
    else if c = C 'H' ∨ c = 0x7f then claimedInput line.dropLast cs
    else
      let c := if c = chr '\r' then chr '\n' else c
      if c = chr '\n' then line ++ [c] ++ claimedInput [] cs
      else if c = C 'D' then line ++ claimedInput [] cs
      else claimedInput (line ++ [c]) cs

/-- 128 `a`s fill the buffer, which commits them; the `b` typed next finds
no room and is dropped. A read takes the 128 `a`s, then `c` and a newline
are typed and read. -/
def fullBufferRun : List (ConsEv (Fin 1)) :=
  List.replicate 128 (.intr 97) ++ [.intr 98, .read 0 (fun _ => true) 128] ++
    List.replicate 129 (.readLoop 0) ++
    [.intr 99, .intr 10, .read 0 (fun _ => true) 128, .readLoop 0, .readLoop 0]

theorem fullBufferRun_drops_typed :
    ∃ σ, (consSys (Fin 1)).Reachable σ ∧ ¬ σ.delivered <+: claimedInput [] σ.typed := by
  have heval : ((ConsSys.init (fun _ => 0)).run fullBufferRun).map
      (fun σ => (σ.delivered, claimedInput [] σ.typed)) =
      some (List.replicate 128 97 ++ [99, 10], List.replicate 128 97 ++ [98, 99, 10]) := by
    decide +kernel
  obtain ⟨σ, hrun, hσ⟩ := Option.map_eq_some_iff.mp heval
  obtain ⟨hd, ht⟩ := Prod.mk.inj hσ
  refine ⟨σ, ConsSys.reachable_of_run (.init ⟨_, rfl⟩) hrun, ?_⟩
  rw [hd, ht, List.prefix_append_right_inj]
  simp

end Xv6.Kernel
