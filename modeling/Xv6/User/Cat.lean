import Xv6.Lib.Chunks
import Xv6.Lib.Buffer
import Xv6.Lib.Reach

/-!
# cat (`user/cat.c`)

`cat(fd)` copies its input to file descriptor `1` through `char buf[512]`:
each pass reads a chunk and writes it out with `write(1, buf, n)`. A write
that does not take the whole chunk ends `cat` with `"cat: write error\n"` on
file descriptor `2` and `exit(1)`, a failed read with `"cat: read error\n"`.

The model is one step per pass of the loop, labelled with what `read`
returned and what the `write` of the chunk returned (`catSys`). `read` keeps
to `Xv6.Lib.ReadOk`; `write` returns at most the count it is given, having
written that many bytes from the front of the chunk, or `-1` having written
none (`WriteOk`). `fprintf(2, ...)` calls are kept as their formats.

`cat_copies`: every pass stays inside `buf`, the loop ends after at most one
pass per input byte and one more, and at the end `cat` has written the whole
input, in order and once, with no message; or it has written a prefix of the
input, one of the two messages, and exited with `1`.
-/

namespace Xv6.User.Cat

open Xv6.Lib

/-! ## The code -/

/-- `"cat: write error\n"` -/
def writeErrorFmt : List UInt8 :=
  [99, 97, 116, 58, 32, 119, 114, 105, 116, 101, 32, 101, 114, 114, 111, 114, 10]

/-- `"cat: read error\n"` -/
def readErrorFmt : List UInt8 :=
  [99, 97, 116, 58, 32, 114, 101, 97, 100, 32, 101, 114, 114, 111, 114, 10]

/-- The state of `cat(fd)`. -/
structure State where
  /-- `char buf[512]` -/
  buf : Bytes 512
  /-- what `read(fd, ...)` has still to return -/
  input : List UInt8
  /-- what has been written to file descriptor `1` -/
  out : List UInt8
  /-- the formats of the `fprintf(2, ...)` calls made -/
  errors : List (List UInt8)
  /-- the loop has exited -/
  done : Bool
  /-- the status passed to `exit` -/
  exited : Option Int

/-- One pass once `read(fd, buf, sizeof(buf))` has returned `n` and, for a
chunk, `write(1, buf, n)` has returned `w`; after the loop, the check on `n`. -/
def catPass (g : State) (n w : Int) : Except String State :=
  if 0 < n then do
    -- `read` put the next `n` bytes at `buf`, and `write` takes them from there
    let buf ← g.buf.storeList 0 (g.input.take n.toNat)
    let chunk ← buf.loadSlice 0 n.toNat
    let g := { g with buf := buf, input := g.input.drop n.toNat, out := g.out ++ chunk.take w.toNat }
    -- `if (write(1, buf, n) != n) { fprintf(2, "cat: write error\n"); exit(1); }`
    if w ≠ n then pure { g with errors := g.errors ++ [writeErrorFmt], done := true, exited := some 1 }
    else pure g
  else if n < 0 then
    -- `fprintf(2, "cat: read error\n"); exit(1);`
    .ok { g with errors := g.errors ++ [readErrorFmt], done := true, exited := some 1 }
  else .ok { g with done := true }

/-- `write(1, buf, n)` may return `w`: at most `n`, or `-1`. -/
def WriteOk (n w : Int) : Prop := -1 ≤ w ∧ w ≤ n

/-- `cat(fd)` on `input`, whatever `buf` held before. -/
def catSys (input : List UInt8) : TSys State (Int × Int) where
  init g := g.input = input ∧ g.out = [] ∧ g.errors = [] ∧ g.done = false ∧ g.exited = none
  step g e g' := g.done = false ∧ ReadOk g.input 512 e.1 ∧ WriteOk e.1 e.2 ∧ catPass g e.1 e.2 = .ok g'

/-! ## The loop -/

/-- What holds between passes: what has been written and what is unread make
up the input, with no message; once the loop has exited, the whole input
was written, or a prefix of it and a message before `exit(1)`. -/
structure CatInv (input : List UInt8) (g : State) : Prop where
  running : g.done = false → g.out ++ g.input = input ∧ g.errors = [] ∧ g.exited = none
  ended : g.done = true →
    (g.exited = none ∧ g.out = input ∧ g.errors = []) ∨
    (g.exited = some 1 ∧ g.out <+: input ∧ (g.errors = [writeErrorFmt] ∨ g.errors = [readErrorFmt]))

/-- The passes the loop can still make: one per unread byte at most, and the
last `read`. -/
def State.passesLeft (g : State) : Nat := g.input.length + if g.done then 0 else 1

section Pass

variable {input : List UInt8} {g : State}

theorem CatInv.init (hg : (catSys input).init g) : CatInv input g := by
  obtain ⟨hinput, hout, herr, hdone, hexit⟩ := hg
  exact ⟨fun _ => ⟨by rw [hout, hinput, List.nil_append], herr, hexit⟩,
    fun h => absurd (hdone ▸ h) Bool.false_ne_true⟩

/-- A pass: it stays inside `buf`, writes the front of the chunk `write`
took, and keeps the invariant; the loop exits on a short write or when
`n ≤ 0`. Whatever `write` returns, it cannot write more than the chunk. -/
theorem CatInv.pass (h : CatInv input g) (hdone : g.done = false) {n : Int}
    (hn : ReadOk g.input 512 n) (w : Int) :
    ∃ g', catPass g n w = .ok g' ∧ CatInv input g' ∧ g'.input = g.input.drop n.toNat ∧
      (g'.done = true ↔ n ≤ 0 ∨ w ≠ n) := by
  obtain ⟨hsplit, herr, hexit⟩ := h.running hdone
  by_cases hpos : 0 < n
  · -- a chunk: stored at `buf`, then read back by `write`
    have hchunk := hn.length_take hpos
    have hfit : 0 + (g.input.take n.toNat).length ≤ 512 := by
      rw [hchunk]
      have := hn.le_count
      omega
    have hslice : (g.buf.setList 0 (g.input.take n.toNat)).slice 0 n.toNat = g.input.take n.toNat := by
      have := Bytes.slice_setList_self (b := g.buf) (o := 0) (g.input.take n.toNat) hfit
      rwa [hchunk] at this
    have hrun : catPass g n w = if w ≠ n then .ok { g with
          buf := g.buf.setList 0 (g.input.take n.toNat)
          input := g.input.drop n.toNat
          out := g.out ++ (g.input.take n.toNat).take w.toNat
          errors := g.errors ++ [writeErrorFmt]
          done := true
          exited := some 1 }
        else .ok { g with
          buf := g.buf.setList 0 (g.input.take n.toNat)
          input := g.input.drop n.toNat
          out := g.out ++ (g.input.take n.toNat).take w.toNat } := by
      rw [catPass, if_pos hpos, Bytes.storeList_of_le hfit]
      simp only [bind, Except.bind, Bytes.loadSlice_of_le (by rw [← hchunk]; omega : 0 + n.toNat ≤ 512),
        hslice]
      split_ifs <;> rfl
    -- what is written is a prefix of the chunk, which follows what was written
    have hprefix : g.out ++ (g.input.take n.toNat).take w.toNat <+: input := by
      rw [← hsplit]
      exact (List.prefix_append_right_inj g.out).mpr ((List.take_prefix _ _).trans (List.take_prefix _ _))
    by_cases hwn : w ≠ n
    · -- a short write
      rw [if_pos hwn] at hrun
      exact ⟨_, hrun, ⟨fun h => Bool.noConfusion h, fun _ => .inr ⟨rfl, hprefix, .inl (by rw [herr]; rfl)⟩⟩,
        rfl, iff_of_true rfl (.inr hwn)⟩
    · -- the whole chunk was written: the loop goes on
      rw [if_neg hwn] at hrun
      have hwn' : w.toNat = n.toNat := by rw [not_not.mp hwn]
      refine ⟨_, hrun, ⟨fun _ => ⟨?_, herr, hexit⟩, fun h => absurd (hdone ▸ h) Bool.false_ne_true⟩,
        rfl, iff_of_false (by simp [hdone]) (by omega)⟩
      show g.out ++ (g.input.take n.toNat).take w.toNat ++ g.input.drop n.toNat = input
      rw [hwn', List.take_take, min_self, List.append_assoc, List.take_append_drop, hsplit]
  · by_cases hneg : n < 0
    · -- `read` failed
      refine ⟨{ g with errors := g.errors ++ [readErrorFmt], done := true, exited := some 1 },
        by rw [catPass, if_neg hpos, if_pos hneg],
        ⟨fun h => Bool.noConfusion h, fun _ => .inr ⟨rfl, ?_, .inr (by rw [herr]; rfl)⟩⟩,
        by rw [Int.toNat_of_nonpos hneg.le, List.drop_zero], iff_of_true rfl (.inl hneg.le)⟩
      exact ⟨g.input, hsplit⟩
    · -- `read` returned `0`: the whole input has been written
      have hempty := hn.eq_nil (by omega)
      refine ⟨{ g with done := true }, by rw [catPass, if_neg hpos, if_neg hneg],
        ⟨fun h => Bool.noConfusion h, fun _ => .inl ⟨hexit, ?_, herr⟩⟩,
        by rw [show n = 0 by omega, Int.toNat_zero, List.drop_zero], iff_of_true rfl (.inl (by omega))⟩
      rw [← hsplit, hempty, List.append_nil]

theorem CatInv.step (h : CatInv input g) {e : Int × Int} {g' : State}
    (hstep : (catSys input).step g e g') :
    CatInv input g' ∧ g'.passesLeft < g.passesLeft := by
  obtain ⟨hdone, hn, -, hpass⟩ := hstep
  obtain ⟨g'', hpass', hinv, hinput, hexit⟩ := h.pass hdone hn e.2
  rw [hpass', Except.ok.injEq] at hpass
  subst hpass
  refine ⟨hinv, ?_⟩
  unfold State.passesLeft
  rw [hinput, hdone, List.length_drop]
  by_cases hn0 : e.1 ≤ 0
  · -- the last pass
    simp only [hexit.mpr (.inl hn0), if_true, Bool.false_eq_true, if_false]
    omega
  · -- a chunk of at least one byte
    have hle := hn.le_input
    simp only [Bool.false_eq_true, if_false]
    split <;> omega

/-- Until the loop exits, `read` and `write` can always return something
their contracts allow. -/
theorem CatInv.progress (h : CatInv input g) (hdone : g.done = false) :
    ∃ e g', (catSys input).step g e g' := by
  have hread : ReadOk g.input 512 (if g.input = [] then 0 else 1) :=
    ReadOk.progress g.input (by decide)
  have hwrite : WriteOk (if g.input = [] then 0 else 1) (if g.input = [] then 0 else 1) :=
    ⟨by split <;> omega, le_refl _⟩
  obtain ⟨g', hpass, -⟩ := h.pass hdone hread (if g.input = [] then 0 else 1)
  exact ⟨(if g.input = [] then 0 else 1, if g.input = [] then 0 else 1), g', hdone, hread, hwrite,
    hpass⟩

end Pass

theorem catInv_invariant (input : List UInt8) : (catSys input).Invariant (CatInv input) :=
  TSys.Invariant.of_inductive (fun _ hg => CatInv.init hg) fun _ _ _ h hstep => (h.step hstep).1

/-- Every run from a reachable state uses up passes. -/
theorem run_length_le {input : List UInt8} {g g' : State} {es : List (Int × Int)}
    (hrun : (catSys input).Run g es g') (hg : (catSys input).Reachable g) :
    es.length + g'.passesLeft ≤ g.passesLeft := by
  induction hrun with
  | nil => simp
  | cons hstep _ ih =>
    have hlt := (catInv_invariant input _ hg |>.step hstep).2
    have := ih (hg.step hstep)
    simp only [List.length_cons]
    omega

theorem cat_copies (input : List UInt8) :
    (∀ g, (catSys input).Reachable g → g.done = false →
      ∀ n w, ReadOk g.input 512 n → ∃ g', catPass g n w = .ok g') ∧
    (∀ g, (catSys input).Reachable g → g.done = false → ∃ e g', (catSys input).step g e g') ∧
    (∀ g es g', (catSys input).init g → (catSys input).Run g es g' → es.length ≤ input.length + 1) ∧
    (∀ g, (catSys input).Reachable g → g.done = true →
      (g.exited = none ∧ g.out = input ∧ g.errors = []) ∨
      (g.exited = some 1 ∧ g.out <+: input ∧ (g.errors = [writeErrorFmt] ∨ g.errors = [readErrorFmt]))) := by
  have hinv := catInv_invariant input
  refine ⟨fun g hg hdone n w hn => ?_, fun g hg hdone => (hinv g hg).progress hdone,
    fun g es g' hg hrun => ?_, fun g hg hdone => (hinv g hg).ended hdone⟩
  · obtain ⟨g', hpass, -⟩ := (hinv g hg).pass hdone hn w
    exact ⟨g', hpass⟩
  · -- a run starts with every input byte unread and the loop running
    have hle := run_length_le hrun (.init hg)
    obtain ⟨hinput, -, -, hdone, -⟩ := hg
    simp only [State.passesLeft, hinput, hdone] at hle
    simp at hle
    omega

end Xv6.User.Cat
