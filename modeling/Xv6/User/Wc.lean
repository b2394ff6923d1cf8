import Xv6.Lib.Words
import Xv6.Lib.Chunks
import Xv6.Lib.Format
import Xv6.Lib.Reach
import Xv6.User.Ulib

/-!
# wc (`user/wc.c`)

`wc(fd, name)` reads its input into `char buf[512]` a chunk at a time and
counts, byte by byte, the newlines, the words and the bytes. A byte ends a
word when `strchr(" \r\t\n\v", c)` finds it; `strchr` stops at the string's
NUL without comparing it, so a NUL byte is inside a word. At the end `wc`
prints the three counts and the name, or after a failed `read` an error, and
exits with status `1`.

The model is one step per pass of the outer loop, labelled with what `read`
returned (`wcSys`), as for grep. `read` returns at most the 512 bytes asked
for and what is left, `0` only at the end, and may fail with a negative count
at any time (`Xv6.Lib.ReadOk`). What `wc` prints is kept as the calls to
`printf` it makes, each a format and its arguments; their rendering is
`vprintf`'s.

`wc_counts`: every pass stays inside `buf` and the string it looks bytes up
in, the loop ends after at most one pass per input byte and one more, and at
the end `wc` has printed the number of newlines, of words (the maximal runs
of bytes that are not white space, `Xv6.Lib.words`) and of bytes of its
input, however `read` has cut it, or the error and exited after a failed
`read`.
-/

namespace Xv6.User.Wc

open Xv6.Lib

/-! ## The code -/

/-- `" \r\t\n\v"`, the string `wc` looks each byte up in. -/
def spaces : Bytes 6 := (Bytes.zero : Bytes 6).setList 0 [32, 13, 9, 10, 11]

/-- The counters `l`, `w`, `c` and the flag `inword`. -/
structure Counts where
  l : Nat
  w : Nat
  c : Nat
  inword : Bool

/-- The body of the inner loop on the byte `x = buf[i]`:
`c++; if (buf[i] == '\n') l++;`, then the word count. -/
def countByte (st : Counts) (x : UInt8) : Except String Counts := do
  let l := if x = 10 then st.l + 1 else st.l
  match ← strchr spaces 0 x with
  | some _ => pure ⟨l, st.w, st.c + 1, false⟩
  | none => pure (if st.inword then ⟨l, st.w, st.c + 1, true⟩ else ⟨l, st.w + 1, st.c + 1, true⟩)

/-- `for (i = 0; i < n; i++)` from `i`, with `k` bytes left. -/
def countLoop (buf : Bytes 512) : Nat → Nat → Counts → Except String Counts
  | _, 0, st => .ok st
  | i, k + 1, st => do
    let x ← buf.load i
    let st ← countByte st x
    countLoop buf (i + 1) k st

/-- `"%d %d %d %s\n"` -/
def countsFmt : List UInt8 := [37, 100, 32, 37, 100, 32, 37, 100, 32, 37, 115, 10]

/-- `"wc: read error\n"` -/
def readErrorFmt : List UInt8 :=
  [119, 99, 58, 32, 114, 101, 97, 100, 32, 101, 114, 114, 111, 114, 10]

/-- `printf("%d %d %d %s\n", l, w, c, name)`: the format and the arguments,
the `int` counters as `va_arg` reads them. -/
def countsCall (name : List UInt8) (st : Counts) : List UInt8 × List Arg :=
  (countsFmt, [.int (Int32.ofNat st.l), .int (Int32.ofNat st.w), .int (Int32.ofNat st.c),
    .str (some name)])

/-- The state of `wc(fd, name)`. -/
structure State where
  /-- `char buf[512]` -/
  buf : Bytes 512
  counts : Counts
  /-- what `read(fd, ...)` has still to return -/
  input : List UInt8
  /-- the calls to `printf` made -/
  printed : List (List UInt8 × List Arg)
  /-- the outer loop has exited -/
  done : Bool
  /-- the status passed to `exit` -/
  exited : Option Int

/-- One pass of the outer loop once `read(fd, buf, sizeof(buf))` has
returned `n`; after the loop, the checks on `n` and the last `printf`. -/
def wcPass (name : List UInt8) (g : State) (n : Int) : Except String State :=
  if 0 < n then do
    -- `read` put the next `n` bytes at `buf`
    let buf ← g.buf.storeList 0 (g.input.take n.toNat)
    let counts ← countLoop buf 0 n.toNat g.counts
    pure { g with buf := buf, counts := counts, input := g.input.drop n.toNat }
  else if n < 0 then
    -- `printf("wc: read error\n"); exit(1);`
    .ok { g with printed := g.printed ++ [(readErrorFmt, [])], done := true, exited := some 1 }
  else .ok { g with printed := g.printed ++ [countsCall name g.counts], done := true }

/-- `wc(fd, name)` on `input`, whatever `buf` held before; each pass's
`read(fd, buf, sizeof(buf))` keeps to `Xv6.Lib.ReadOk`. -/
def wcSys (name input : List UInt8) : TSys State Int where
  init g := g.counts = ⟨0, 0, 0, false⟩ ∧ g.input = input ∧ g.printed = [] ∧ g.done = false ∧
    g.exited = none
  step g n g' := g.done = false ∧ ReadOk g.input 512 n ∧ wcPass name g n = .ok g'

/-! ## What is counted -/

/-- The bytes `strchr(" \r\t\n\v", x)` finds. -/
def isSpace (x : UInt8) : Bool := x ∈ [32, 13, 9, 10, 11]

/-- A byte of the count without the lookup in `spaces`. -/
def countStep (st : Counts) (x : UInt8) : Counts :=
  ⟨if x = 10 then st.l + 1 else st.l, (wordStep isSpace (st.w, st.inword) x).1, st.c + 1,
    (wordStep isSpace (st.w, st.inword) x).2⟩

/-- What `wc` is to print for `input`: its newlines, words and bytes. -/
def wcOutput (name input : List UInt8) : List UInt8 × List Arg :=
  (countsFmt, [.int (Int32.ofNat (input.count 10)), .int (Int32.ofNat (words isSpace input).length),
    .int (Int32.ofNat input.length), .str (some name)])

/-- `strchr` finds in `spaces` exactly the white space, and never a NUL. -/
theorem strchr_spaces (x : UInt8) :
    strchr spaces 0 x = .ok (if x ∈ [32, 13, 9, 10, 11] then some ([32, 13, 9, 10, 11].idxOf x)
      else none) := by
  rw [strchr_spec x [32, 13, 9, 10, 11] (by decide) (by decide) (by decide), Nat.zero_add]

theorem countByte_eq (st : Counts) (x : UInt8) : countByte st x = .ok (countStep st x) := by
  simp only [countByte, strchr_spaces, bind, Except.bind]
  by_cases hx : x ∈ [32, 13, 9, 10, 11]
  · -- white space ends the word
    have hs : isSpace x = true := decide_eq_true hx
    rw [if_pos hx]
    simp only [countStep, wordStep, hs, if_true, pure, Except.pure]
  · have hs : isSpace x = false := decide_eq_false hx
    rw [if_neg hx]
    cases hw : st.inword <;> simp [countStep, wordStep, hs, hw, pure, Except.pure]

/-- The inner loop counts the bytes of its range one after the other. -/
theorem countLoop_eq (buf : Bytes 512) (k : Nat) :
    ∀ {i : Nat} (st : Counts), i + k ≤ 512 →
      countLoop buf i k st = .ok ((buf.slice i k).foldl countStep st) := by
  induction k with
  | zero => intro i st _; rfl
  | succ k ih =>
    intro i st hi
    rw [countLoop, Bytes.load_of_lt (by omega), Bytes.slice_succ, List.foldl_cons]
    simp only [bind, Except.bind, countByte_eq]
    exact ih _ (by omega)

/-- The counts after `l` from `st`: the newlines and the bytes added, and the
word count carried by the scan of `Xv6.Lib.wordStep`. -/
theorem foldl_countStep (l : List UInt8) :
    ∀ st : Counts, (l.foldl countStep st).l = st.l + l.count 10 ∧
      (l.foldl countStep st).c = st.c + l.length ∧
      ((l.foldl countStep st).w, (l.foldl countStep st).inword) =
        l.foldl (wordStep isSpace) (st.w, st.inword) := by
  induction l with
  | nil => intro st; simp
  | cons x l ih =>
    intro st
    obtain ⟨hl, hc, hw⟩ := ih (countStep st x)
    refine ⟨?_, ?_, ?_⟩
    · rw [List.foldl_cons, hl, List.count_cons]
      by_cases hx : x = 10
      · simp only [countStep, hx, if_true, beq_self_eq_true]
        omega
      · simp [countStep, hx]
    · rw [List.foldl_cons, hc, List.length_cons]
      simp only [countStep]
      omega
    · rw [List.foldl_cons, hw, List.foldl_cons]
      rfl

/-- From nothing counted, the counts of `input` are what `wc` is to print. -/
theorem countsCall_foldl (name input : List UInt8) :
    countsCall name (input.foldl countStep ⟨0, 0, 0, false⟩) = wcOutput name input := by
  obtain ⟨hl, hc, hw⟩ := foldl_countStep input ⟨0, 0, 0, false⟩
  have hwords := foldl_wordStep isSpace input 0
  rw [← hw] at hwords
  simp only at hl hc hwords
  simp only [countsCall, wcOutput, hl, hc, hwords, Nat.zero_add]

/-! ## The loop -/

/-- What holds between passes: the input splits into what has been read,
which has been counted, and the rest; nothing is printed until the loop
exits, and then the counts or the error. -/
structure WcInv (name input : List UInt8) (g : State) : Prop where
  split : ∃ pre, pre ++ g.input = input ∧ g.counts = pre.foldl countStep ⟨0, 0, 0, false⟩
  running : g.done = false → g.printed = [] ∧ g.exited = none
  ended : g.done = true →
    (g.exited = none ∧ g.input = [] ∧ g.printed = [countsCall name g.counts]) ∨
    (g.exited = some 1 ∧ g.printed = [(readErrorFmt, [])])

/-- The passes the loop can still make: one per unread byte at most, and the
last `read`. -/
def State.passesLeft (g : State) : Nat := g.input.length + if g.done then 0 else 1

section Pass

variable {name input : List UInt8} {g : State}

theorem WcInv.init (hg : (wcSys name input).init g) : WcInv name input g := by
  obtain ⟨hc, hinput, hprinted, hdone, hexit⟩ := hg
  exact ⟨⟨[], by rw [hinput, List.nil_append], by rw [hc, List.foldl_nil]⟩, fun _ => ⟨hprinted, hexit⟩,
    fun h => absurd (hdone ▸ h) Bool.false_ne_true⟩

/-- A pass after `read` returned `n`: it stays inside `buf` and `spaces`,
counts the bytes read, and keeps the invariant; the loop exits when `n ≤ 0`. -/
theorem WcInv.pass (h : WcInv name input g) (hdone : g.done = false) {n : Int}
    (hn : ReadOk g.input 512 n) :
    ∃ g', wcPass name g n = .ok g' ∧ WcInv name input g' ∧ g'.input = g.input.drop n.toNat ∧
      (g'.done = true ↔ n ≤ 0) := by
  obtain ⟨pre, hpre, hcounts⟩ := h.split
  obtain ⟨hprinted, hexit⟩ := h.running hdone
  by_cases hpos : 0 < n
  · -- a chunk: `read` stores it at `buf` and the inner loop counts it
    have hchunk := hn.length_take hpos
    have hfit : 0 + (g.input.take n.toNat).length ≤ 512 := by
      rw [hchunk]
      have := hn.le_count
      omega
    have hslice : (g.buf.setList 0 (g.input.take n.toNat)).slice 0 n.toNat = g.input.take n.toNat := by
      have := Bytes.slice_setList_self (b := g.buf) (o := 0) (g.input.take n.toNat) hfit
      rwa [hchunk] at this
    refine ⟨{ g with
        buf := g.buf.setList 0 (g.input.take n.toNat)
        counts := (g.input.take n.toNat).foldl countStep g.counts
        input := g.input.drop n.toNat }, ?_, ⟨⟨pre ++ g.input.take n.toNat, ?_, ?_⟩, fun _ => ⟨hprinted, hexit⟩,
        fun h => absurd (hdone ▸ h) Bool.false_ne_true⟩, rfl, ?_⟩
    · rw [wcPass, if_pos hpos, Bytes.storeList_of_le hfit]
      have hloop := countLoop_eq (g.buf.setList 0 (g.input.take n.toNat)) n.toNat (i := 0) g.counts
        (by have := hn.le_count; omega)
      simp only [bind, Except.bind, hloop, hslice, pure, Except.pure]
    · rw [List.append_assoc, List.take_append_drop, hpre]
    · rw [List.foldl_append, hcounts]
    · exact iff_of_false (by simp [hdone]) (by omega)
  · by_cases hneg : n < 0
    · -- `read` failed: the error, and `exit(1)`
      refine ⟨{ g with printed := g.printed ++ [(readErrorFmt, [])], done := true, exited := some 1 },
        by rw [wcPass, if_neg hpos, if_pos hneg], ⟨⟨pre, hpre, hcounts⟩,
          fun h => Bool.noConfusion h, fun _ => .inr ⟨rfl, by rw [hprinted]; rfl⟩⟩,
        by rw [Int.toNat_of_nonpos hneg.le, List.drop_zero], iff_of_true rfl (by omega)⟩
    · -- `read` returned `0`: nothing was left, and the counts are printed
      have hn0 : n = 0 := by omega
      have hempty := hn.eq_nil hn0
      refine ⟨{ g with printed := g.printed ++ [countsCall name g.counts], done := true },
        by rw [wcPass, if_neg hpos, if_neg hneg], ⟨⟨pre, hpre, hcounts⟩,
          fun h => Bool.noConfusion h,
          fun _ => .inl ⟨hexit, hempty, by rw [hprinted]; rfl⟩⟩,
        by rw [hn0, Int.toNat_zero, List.drop_zero], iff_of_true rfl (by omega)⟩

theorem WcInv.step (h : WcInv name input g) {n : Int} {g' : State}
    (hstep : (wcSys name input).step g n g') :
    WcInv name input g' ∧ g'.passesLeft < g.passesLeft := by
  obtain ⟨hdone, hn, hpass⟩ := hstep
  obtain ⟨g'', hpass', hinv, hinput, hexit⟩ := h.pass hdone hn
  rw [hpass', Except.ok.injEq] at hpass
  subst hpass
  refine ⟨hinv, ?_⟩
  unfold State.passesLeft
  rw [hinput, hdone, List.length_drop]
  by_cases hn0 : n ≤ 0
  · -- the last pass
    simp only [hexit.mpr hn0, if_true, Bool.false_eq_true, if_false]
    omega
  · -- a chunk of at least one byte
    have hle := hn.le_input
    have : g''.done = false := by simpa [hn0] using hexit
    simp only [this]
    omega

/-- Until the loop exits, `read` can always return something the contract allows. -/
theorem WcInv.progress (h : WcInv name input g) (hdone : g.done = false) :
    ∃ n g', (wcSys name input).step g n g' := by
  have hread : ReadOk g.input 512 (if g.input = [] then 0 else 1) :=
    ReadOk.progress g.input (by norm_num)
  obtain ⟨g', hpass, -⟩ := h.pass hdone hread
  exact ⟨_, g', hdone, hread, hpass⟩

end Pass

theorem wcInv_invariant (name input : List UInt8) : (wcSys name input).Invariant (WcInv name input) :=
  TSys.Invariant.of_inductive (fun _ hg => WcInv.init hg) fun _ _ _ h hstep => (h.step hstep).1

/-- Every run from a reachable state uses up passes. -/
theorem run_length_le {name input : List UInt8} {g g' : State} {es : List Int}
    (hrun : (wcSys name input).Run g es g') (hg : (wcSys name input).Reachable g) :
    es.length + g'.passesLeft ≤ g.passesLeft := by
  induction hrun with
  | nil => simp
  | cons hstep _ ih =>
    have hlt := (wcInv_invariant name input _ hg |>.step hstep).2
    have := ih (hg.step hstep)
    simp only [List.length_cons]
    omega

theorem wc_counts (name input : List UInt8) :
    (∀ g, (wcSys name input).Reachable g → g.done = false →
      ∀ n, ReadOk g.input 512 n → ∃ g', wcPass name g n = .ok g') ∧
    (∀ g, (wcSys name input).Reachable g → g.done = false → ∃ n g', (wcSys name input).step g n g') ∧
    (∀ g es g', (wcSys name input).init g → (wcSys name input).Run g es g' →
      es.length ≤ input.length + 1) ∧
    (∀ g, (wcSys name input).Reachable g → g.done = true →
      (g.exited = none ∧ g.printed = [wcOutput name input]) ∨
      (g.exited = some 1 ∧ g.printed = [(readErrorFmt, [])])) := by
  have hinv := wcInv_invariant name input
  refine ⟨fun g hg hdone n hn => ?_, fun g hg hdone => (hinv g hg).progress hdone,
    fun g es g' hg hrun => ?_, fun g hg hdone => ?_⟩
  · obtain ⟨g', hpass, -⟩ := (hinv g hg).pass hdone hn
    exact ⟨g', hpass⟩
  · -- a run starts with every input byte unread and the loop running
    have hle := run_length_le hrun (.init hg)
    obtain ⟨-, hinput, -, hdone, -⟩ := hg
    simp only [State.passesLeft, hinput, hdone] at hle
    simp at hle
    omega
  · -- at the end everything has been read: the counts are those of the input
    rcases (hinv g hg).ended hdone with ⟨hexit, hempty, hprinted⟩ | herr
    · obtain ⟨pre, hpre, hcounts⟩ := (hinv g hg).split
      rw [hempty, List.append_nil] at hpre
      subst hpre
      exact .inl ⟨hexit, by rw [hprinted, hcounts, countsCall_foldl]⟩
    · exact .inr herr

end Xv6.User.Wc
