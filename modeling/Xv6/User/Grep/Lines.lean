import Xv6.User.Grep.Match
import Xv6.User.Ulib
import Xv6.Lib.Reach

/-!
# grep's line buffering (`user/grep.c`)

`grep(pattern, fd)` reads its input into `char buf[1024]` a chunk at a time.
After each `read` it writes out every complete line in the buffer that the
pattern matches, and moves the unfinished last line to the front of `buf`,
where the next chunk is appended to it.

The model is one step per pass of the outer loop, labelled with the count
`n` that `read` returned (`grepSys`). `read` may return any count up to the
one it is asked for and what is left of the input, and returns `0` only at the
end (`ReadOk`). Every access to `buf` goes through the checked accesses of
`Xv6.Lib.Buffer`, so a pass that returns stayed inside `buf`.

`grep_lines`: on an input of lines without NUL bytes, each at most 1023
bytes with its newline, every pass returns, the loop ends after at most one
pass per input byte and one more, and when it has ended grep has written
exactly the lines that match, each with its newline, in the order of the input.
-/

namespace Xv6.User.Grep

open Xv6.Lib

/-! ## The code -/

/-- The state of `grep(pattern, fd)`. -/
structure State where
  /-- `char buf[1024]` -/
  buf : Bytes 1024
  /-- `m`: the bytes of an unfinished line kept at the front of `buf` -/
  m : Nat
  /-- what `read(fd, ...)` has still to return -/
  input : List UInt8
  /-- what `write(1, ...)` has written -/
  out : List UInt8
  /-- the outer loop has exited -/
  done : Bool

/-- The inner loop, `while ((q = strchr(p, '\n')) != 0)`, from `p` with `fuel`
passes left; it returns the buffer, the final `p` and the output. -/
def lineLoop (pattern : List UInt8) :
    Nat → Bytes 1024 → Nat → List UInt8 → Except String (Bytes 1024 × Nat × List UInt8)
  | 0, _, _, _ => .error "grep: out of fuel"
  | fuel + 1, buf, p, out => do
    match ← strchr buf p 10 with
    | none => pure (buf, p, out)
    | some q =>
      -- `*q = 0`, and `match` reads the line as a string
      let buf ← buf.store q 0
      let line ← buf.cstring p
      if matchRe pattern line then
        -- `*q = '\n'; write(1, p, q + 1 - p);`
        let buf ← buf.store q 10
        let bytes ← buf.loadSlice p (q + 1 - p)
        lineLoop pattern fuel buf (q + 1) (out ++ bytes)
      else lineLoop pattern fuel buf (q + 1) out

/-- One pass of the outer loop, once `read(fd, buf + m, sizeof(buf) - m - 1)`
has returned `n`. -/
def grepPass (pattern : List UInt8) (g : State) (n : Nat) : Except String State := do
  if n = 0 then return { g with done := true }
  -- `read` put the next `n` bytes at `buf + m`
  let buf ← g.buf.storeList g.m (g.input.take n)
  let m := g.m + n
  let buf ← buf.store m 0
  let (buf, p, out) ← lineLoop pattern 1024 buf 0 g.out
  if m > 0 then
    -- `m -= p - buf; memmove(buf, p, m);`
    let m := m - p
    let buf ← memmove buf 0 p m
    return ⟨buf, m, g.input.drop n, out, false⟩
  else return ⟨buf, m, g.input.drop n, out, false⟩

/-- `read(fd, buf + m, sizeof(buf) - m - 1)` may return `n`: no more than it
is asked for and than is left, and `0` only at the end of the input. -/
structure ReadOk (g : State) (n : Nat) : Prop where
  le_count : n ≤ 1024 - g.m - 1
  le_input : n ≤ g.input.length
  pos : g.input ≠ [] → 0 < n

/-- `grep(pattern, fd)` on `input`, whatever `buf` held before. -/
def grepSys (pattern input : List UInt8) : TSys State Nat where
  init g := g.m = 0 ∧ g.input = input ∧ g.out = [] ∧ g.done = false
  step g n g' := g.done = false ∧ ReadOk g n ∧ grepPass pattern g n = .ok g'

/-! ## Lines -/

/-- Lines, each followed by its newline. -/
def joinLines (ls : List (List UInt8)) : List UInt8 := (ls.map (· ++ [10])).flatten

/-- What grep is to write for the lines `ls`: those that match. -/
def grepOutput (pattern : List UInt8) (ls : List (List UInt8)) : List UInt8 :=
  joinLines (ls.filter (matchRe pattern))

@[simp] theorem joinLines_nil : joinLines [] = [] := rfl

@[simp] theorem joinLines_cons (l : List UInt8) (ls : List (List UInt8)) :
    joinLines (l :: ls) = l ++ 10 :: joinLines ls := by
  simp [joinLines]

theorem joinLines_append (ls ls' : List (List UInt8)) :
    joinLines (ls ++ ls') = joinLines ls ++ joinLines ls' := by
  simp [joinLines]

theorem grepOutput_append (pattern : List UInt8) (ls ls' : List (List UInt8)) :
    grepOutput pattern (ls ++ ls') = grepOutput pattern ls ++ grepOutput pattern ls' := by
  simp only [grepOutput, List.filter_append, joinLines_append]

theorem grepOutput_cons (pattern l : List UInt8) (ls : List (List UInt8)) :
    grepOutput pattern (l :: ls) =
      (if matchRe pattern l then l ++ [10] else []) ++ grepOutput pattern ls := by
  unfold grepOutput
  rw [List.filter_cons]
  split <;> simp

theorem length_le_joinLines (ls : List (List UInt8)) : ls.length ≤ (joinLines ls).length := by
  induction ls with
  | nil => simp
  | cons l ls ih => simp; omega

theorem zero_not_mem_joinLines {ls : List (List UInt8)} (h : ∀ l ∈ ls, 0 ∉ l) :
    0 ∉ joinLines ls := by
  induction ls with
  | nil => simp
  | cons l ls ih =>
    simp only [joinLines_cons, List.mem_append, List.mem_cons, not_or]
    exact ⟨h l List.mem_cons_self, by decide,
      ih fun l' hl' => h l' (List.mem_cons_of_mem l hl')⟩

/-- Every byte string is some complete lines, then a piece with no newline. -/
theorem exists_lines (s : List UInt8) :
    ∃ C r, s = joinLines C ++ r ∧ 10 ∉ r ∧ ∀ l ∈ C, 10 ∉ l := by
  induction s with
  | nil => exact ⟨[], [], rfl, List.not_mem_nil, by simp⟩
  | cons x s ih =>
    obtain ⟨C, r, rfl, hr, hC⟩ := ih
    by_cases hx : x = 10
    · -- a newline ends an empty line
      subst hx
      exact ⟨[] :: C, r, by simp, hr, by simpa using hC⟩
    · cases C with
      | nil => exact ⟨[], x :: r, by simp, by simp [Ne.symm hx, hr], by simp⟩
      | cons l C =>
        -- `x` starts the first line
        refine ⟨(x :: l) :: C, r, by simp, hr, ?_⟩
        simp only [List.mem_cons, forall_eq_or_imp] at hC ⊢
        exact ⟨by simp [Ne.symm hx, hC.1], hC.2⟩

/-- Two texts that start with a line each agree on that line and on the rest. -/
theorem append_newline_inj {l l' X X' : List UInt8} (h : l ++ 10 :: X = l' ++ 10 :: X')
    (hl : 10 ∉ l) (hl' : 10 ∉ l') : l = l' ∧ X = X' := by
  rcases List.append_eq_append_iff.mp h with ⟨a, rfl, ha⟩ | ⟨a, rfl, ha⟩
  · cases a with
    | nil => simpa using ha
    | cons y a =>
      rw [List.cons_append, List.cons.injEq] at ha
      exact absurd (by simp [← ha.1]) hl'
  · cases a with
    | nil => simpa using ha.symm
    | cons y a =>
      rw [List.cons_append, List.cons.injEq] at ha
      exact absurd (by simp [← ha.1]) hl

/-- Lines decode uniquely: complete lines at the front of a text of lines
are its first lines. -/
theorem joinLines_append_eq (C : List (List UInt8)) :
    ∀ {P : List (List UInt8)} {X : List UInt8}, joinLines C ++ X = joinLines P →
      (∀ l ∈ C, 10 ∉ l) → (∀ l ∈ P, 10 ∉ l) → ∃ P', P = C ++ P' ∧ X = joinLines P' := by
  induction C with
  | nil => intro P X h _ _; exact ⟨P, rfl, h⟩
  | cons l C ih =>
    intro P X h hC hP
    cases P with
    | nil => simp at h
    | cons l' P =>
      simp only [joinLines_cons, List.append_assoc, List.cons_append] at h
      obtain ⟨rfl, h'⟩ := append_newline_inj h (hC l List.mem_cons_self) (hP l' List.mem_cons_self)
      obtain ⟨P', rfl, rfl⟩ := ih h' (fun x hx => hC x (List.mem_cons_of_mem l hx))
        (fun x hx => hP x (List.mem_cons_of_mem l hx))
      exact ⟨P', rfl, rfl⟩

/-- A piece with no newline at the front of a line is no longer than the line. -/
theorem length_le_of_append_eq {a t l X : List UInt8} (h : a ++ t = l ++ 10 :: X)
    (ha : 10 ∉ a) : a.length ≤ l.length := by
  rcases List.append_eq_append_iff.mp h with ⟨bs, rfl, -⟩ | ⟨bs, rfl, hbs⟩
  · simp
  · cases bs with
    | nil => simp
    | cons y bs =>
      rw [List.cons_append, List.cons.injEq] at hbs
      exact absurd (by simp [← hbs.1]) ha

/-! ## The inner loop -/

/-- One pass of the inner loop over a line `l` whose newline is at
`p + l.length`: the line is written if it matches, and the buffer past the
newline is as before. -/
theorem lineLoop_line (pattern l : List UInt8) {fuel : Nat} {buf : Bytes 1024} {p : Nat}
    {out : List UInt8} (hsl : buf.slice p l.length = l) (hnl : buf.get (p + l.length) = 10)
    (hl : 10 ∉ l) (hl0 : 0 ∉ l) (hp : p + l.length < 1024) :
    ∃ buf₁, lineLoop pattern (fuel + 1) buf p out =
        lineLoop pattern fuel buf₁ (p + l.length + 1)
          (out ++ if matchRe pattern l then l ++ [10] else []) ∧
      ∀ i, p + l.length < i → buf₁.get i = buf.get i := by
  have hscan : strchr buf p 10 = .ok (some (p + l.length)) := by
    rw [strchr_skip (c := 10) l hsl
      (fun x hx => ⟨fun h => hl0 (h ▸ hx), fun h => hl (h ▸ hx)⟩) (by omega)]
    exact strchr_at hp hnl (by decide)
  -- `*q = 0`: the line reads back as a string
  have hstr : (buf.set (p + l.length) 0).cstring p = .ok l := by
    apply Bytes.cstring_of_slice l _ hl0 hp
    rw [Bytes.slice_add, Bytes.slice_set_of_lt_or_le (Or.inr (le_refl _)), hsl,
      Bytes.slice_succ, Bytes.get_set_self _ hp, Bytes.slice_zero]
  by_cases hm : matchRe pattern l = true
  · -- `*q = '\n'`, and `write` sends the line with its newline
    have hbytes : ((buf.set (p + l.length) 0).set (p + l.length) 10).slice p
        (p + l.length + 1 - p) = l ++ [10] := by
      rw [show p + l.length + 1 - p = l.length + 1 by omega, Bytes.slice_add,
        Bytes.slice_set_of_lt_or_le (Or.inr (le_refl _)),
        Bytes.slice_set_of_lt_or_le (Or.inr (le_refl _)), hsl, Bytes.slice_succ,
        Bytes.get_set_self _ hp, Bytes.slice_zero]
    refine ⟨(buf.set (p + l.length) 0).set (p + l.length) 10, ?_, fun i hi => ?_⟩
    · simp only [lineLoop, hscan, bind, Except.bind, Bytes.store_of_lt hp, hstr, hm, if_true,
        Bytes.loadSlice_of_le (by omega : p + (p + l.length + 1 - p) ≤ 1024), hbytes]
    · rw [Bytes.get_set_of_ne _ (by omega), Bytes.get_set_of_ne _ (by omega)]
  · refine ⟨buf.set (p + l.length) 0, ?_, fun i hi => ?_⟩
    · simp only [lineLoop, hscan, bind, Except.bind, Bytes.store_of_lt hp, hstr, hm]
      simp
    · rw [Bytes.get_set_of_ne _ (by omega)]

/-- The inner loop on a buffer that holds from `p` on complete lines `C`, a
piece `r` with no newline and a NUL: it writes the lines of `C` that match,
and stops at `r`. -/
theorem lineLoop_spec (pattern : List UInt8) {r : List UInt8} (hr : 10 ∉ r)
    (C : List (List UInt8)) :
    ∀ {fuel : Nat} {buf : Bytes 1024} {p : Nat} {out : List UInt8},
      buf.slice p (joinLines C ++ r ++ [0]).length = joinLines C ++ r ++ [0] →
      p + (joinLines C ++ r).length < 1024 → 0 ∉ joinLines C ++ r → (∀ l ∈ C, 10 ∉ l) →
      C.length < fuel →
      ∃ buf', lineLoop pattern fuel buf p out =
          .ok (buf', p + (joinLines C).length, out ++ grepOutput pattern C) ∧
        buf'.slice (p + (joinLines C).length) r.length = r := by
  induction C with
  | nil =>
    intro fuel buf p out hs hp h0 _ hfuel
    obtain ⟨fuel, rfl⟩ : ∃ f, fuel = f + 1 := ⟨fuel - 1, by simp at hfuel; omega⟩
    simp only [joinLines_nil, List.nil_append] at hs hp h0
    obtain ⟨hsr, hnul⟩ := Bytes.slice_append hs
    rw [List.length_singleton, Bytes.slice_succ, List.cons.injEq] at hnul
    -- `strchr` runs over `r` to the NUL
    have hscan : strchr buf p 10 = .ok none := by
      rw [strchr_skip (c := 10) r hsr
        (fun x hx => ⟨fun h => h0 (h ▸ hx), fun h => hr (h ▸ hx)⟩) (by omega)]
      exact strchr_at_nul (by omega) hnul.1 10
    refine ⟨buf, ?_, by simpa using hsr⟩
    simp only [lineLoop, hscan, bind, Except.bind, pure, Except.pure]
    simp [grepOutput]
  | cons l C ih =>
    intro fuel buf p out hs hp h0 hC hfuel
    obtain ⟨fuel, rfl⟩ : ∃ f, fuel = f + 1 := ⟨fuel - 1, by simp at hfuel; omega⟩
    -- the buffer from `p` on: the line, its newline, the rest
    rw [show joinLines (l :: C) ++ r ++ [0] = l ++ 10 :: (joinLines C ++ r ++ [0]) by simp] at hs
    obtain ⟨hsl, hsrest⟩ := Bytes.slice_append hs
    rw [List.length_cons, Bytes.slice_succ, List.cons.injEq] at hsrest
    have hl0 : 0 ∉ l := fun h => h0 (by simp [h])
    have hlen : p + (joinLines (l :: C)).length = p + l.length + 1 + (joinLines C).length := by
      simp only [joinLines_cons, List.length_append, List.length_cons]
      omega
    obtain ⟨buf₁, hstep, hframe⟩ := @lineLoop_line pattern l fuel _ _ out hsl
      hsrest.1 (hC l List.mem_cons_self) hl0 (by simp at hp; omega)
    have hrest : buf₁.slice (p + l.length + 1) (joinLines C ++ r ++ [0]).length =
        joinLines C ++ r ++ [0] := by
      refine (Bytes.slice_congr fun k _ => ?_).trans hsrest.2
      exact hframe _ (by omega)
    obtain ⟨buf', hloop, hr'⟩ := ih hrest (by simp at hp ⊢; omega)
      (fun h => h0 (by simp at h ⊢; tauto)) (fun x hx => hC x (List.mem_cons_of_mem l hx))
      (by simp at hfuel; omega)
    refine ⟨buf', ?_, by rw [hlen]; exact hr'⟩
    rw [hstep, hloop, hlen, grepOutput_cons, List.append_assoc]

/-! ## The outer loop -/

/-- An input of lines without NUL or newline bytes, each at most
`sizeof(buf) - 1` bytes with its newline. -/
def Lines (ls : List (List UInt8)) : Prop := ∀ l ∈ ls, 0 ∉ l ∧ 10 ∉ l ∧ l.length + 1 ≤ 1023

/-- What holds between passes: the lines split into those handled, whose
matches have been written, and the rest, which are the bytes kept at the
front of `buf` followed by the unread input. -/
structure GrepInv (pattern : List UInt8) (ls : List (List UInt8)) (g : State) : Prop where
  split : ∃ pre post, ls = pre ++ post ∧ g.out = grepOutput pattern pre ∧
    g.buf.slice 0 g.m ++ g.input = joinLines post
  kept : 10 ∉ g.buf.slice 0 g.m
  exited : g.done = true → g.input = []

/-- The passes the loop can still make: one per unread byte at most, and the
last `read` that returns nothing. -/
def State.passesLeft (g : State) : Nat := g.input.length + if g.done then 0 else 1

section Pass

variable {pattern : List UInt8} {ls : List (List UInt8)} {g : State}

theorem GrepInv.init (hg : (grepSys pattern (joinLines ls)).init g) : GrepInv pattern ls g := by
  obtain ⟨hm, hinput, hout, hdone⟩ := hg
  refine ⟨⟨[], ls, rfl, by simp [hout, grepOutput], by simp [hm, hinput]⟩, by simp [hm],
    fun h => absurd (hdone ▸ h) (by decide)⟩

/-- The bytes kept are the front of a line, so they leave room for a `read`. -/
theorem GrepInv.m_le (h : GrepInv pattern ls g) (hls : Lines ls) : g.m ≤ 1022 := by
  obtain ⟨pre, post, rfl, -, hsplit⟩ := h.split
  cases post with
  | nil =>
    have hnil := congrArg List.length (List.append_eq_nil_iff.mp hsplit).1
    simp at hnil
    omega
  | cons l post =>
    have hle := length_le_of_append_eq (by rw [hsplit, joinLines_cons]) h.kept
    have hl := (hls l (by simp)).2.2
    simp only [Bytes.length_slice] at hle
    omega

/-- At the end of the input nothing is kept, and every line has been handled. -/
theorem GrepInv.output (h : GrepInv pattern ls g) (hdone : g.done = true) :
    g.out = grepOutput pattern ls := by
  obtain ⟨pre, post, rfl, hout, hsplit⟩ := h.split
  rw [h.exited hdone, List.append_nil] at hsplit
  cases post with
  | nil => rw [hout, List.append_nil]
  | cons l post =>
    exact absurd (by rw [hsplit, joinLines_cons]; simp) h.kept

/-- A pass after `read` returned `n` bytes: it stays inside `buf`, writes the
lines completed by the new bytes that match, and keeps the invariant. -/
theorem GrepInv.pass (h : GrepInv pattern ls g) (hls : Lines ls) {n : Nat} (hn : ReadOk g n) :
    ∃ g', grepPass pattern g n = .ok g' ∧ GrepInv pattern ls g' ∧
      g'.input = g.input.drop n ∧ (g'.done = true ↔ n = 0) := by
  by_cases hn0 : n = 0
  · -- `read` returned nothing: the input is used up and the loop exits
    subst hn0
    have hempty : g.input = [] := by
      by_contra hne
      exact absurd (hn.pos hne) (Nat.lt_irrefl 0)
    refine ⟨{ g with done := true }, by simp [grepPass, pure, Except.pure],
      ⟨h.split, h.kept, fun _ => hempty⟩, by simp, by simp⟩
  obtain ⟨pre, post, rfl, hout, hsplit⟩ := h.split
  have hm := h.m_le hls
  have hmn : g.m + n ≤ 1023 := by have := hn.le_count; omega
  have hchunk : (g.input.take n).length = n := by
    rw [List.length_take]
    exact min_eq_left hn.le_input
  -- `read` puts the chunk after the kept bytes, and `buf[m] = 0` ends it
  have hb₁ : (g.buf.setList g.m (g.input.take n)).slice 0 (g.m + n) =
      g.buf.slice 0 g.m ++ g.input.take n := by
    have hself := Bytes.slice_setList_self (b := g.buf) (o := g.m) (g.input.take n) (by omega)
    rw [hchunk] at hself
    rw [Bytes.slice_add, Bytes.slice_setList_of_le _ (le_of_eq (Nat.zero_add _)), Nat.zero_add,
      hself]
  have hb₂ : ((g.buf.setList g.m (g.input.take n)).set (g.m + n) 0).slice 0
      (g.buf.slice 0 g.m ++ g.input.take n ++ [0]).length =
      g.buf.slice 0 g.m ++ g.input.take n ++ [0] := by
    rw [List.length_append, List.length_singleton, Bytes.slice_add,
      Bytes.slice_set_of_lt_or_le (Or.inr (by simp [hchunk])), Bytes.slice_succ,
      List.length_append, Bytes.length_slice, hchunk, Nat.zero_add, hb₁,
      Bytes.get_set_self _ (by omega), Bytes.slice_zero]
  -- the buffer holds complete lines, then a piece of the next one
  obtain ⟨C, r, hdata, hr, hC⟩ := exists_lines (g.buf.slice 0 g.m ++ g.input.take n)
  have hlines : ∀ l ∈ pre ++ post, 10 ∉ l := fun l hl => (hls l hl).2.1
  have hrest : joinLines C ++ (r ++ g.input.drop n) = joinLines post := by
    rw [← List.append_assoc, ← hdata, List.append_assoc, List.take_append_drop, hsplit]
  obtain ⟨post', rfl, hpost'⟩ := joinLines_append_eq C hrest hC
    (fun l hl => hlines l (by simp [hl]))
  have hdata0 : 0 ∉ joinLines C ++ r := by
    have h0 := @zero_not_mem_joinLines (C ++ post') (fun l hl => (hls l (by simp [hl])).1)
    rw [joinLines_append, ← hpost'] at h0
    exact fun hz => h0 (by rw [← List.append_assoc]; exact List.mem_append_left _ hz)
  have hlen : (joinLines C).length + r.length = g.m + n := by
    have := congrArg List.length hdata
    simp only [List.length_append, Bytes.length_slice, hchunk] at this
    omega
  -- the inner loop writes the lines of `C` that match and stops at `r`
  obtain ⟨buf₃, hloop, hb₃⟩ := @lineLoop_spec pattern r hr C 1024 _ 0 g.out
    (by rw [← hdata]; exact hb₂) (by rw [← hdata]; simp [hchunk]; omega) hdata0
    hC (by have := length_le_joinLines C; omega)
  rw [Nat.zero_add] at hloop hb₃
  -- `memmove` brings `r` to the front
  obtain ⟨buf₄, hmove, hmoved⟩ := @memmove_spec 1024 buf₃ 0 (joinLines C).length
    r.length (by omega) (by omega)
  refine ⟨⟨buf₄, r.length, g.input.drop n, g.out ++ grepOutput pattern C, false⟩, ?_,
    ⟨⟨pre ++ C, post', by rw [List.append_assoc], by rw [hout, grepOutput_append], ?_⟩, ?_,
      fun h => absurd h Bool.false_ne_true⟩, rfl, by simp [hn0]⟩
  · have hsub : g.m + n - (joinLines C).length = r.length := by omega
    simp only [grepPass, hn0, if_false, bind, Except.bind, Bytes.storeList_of_le (by omega : g.m + (g.input.take n).length ≤ 1024),
      Bytes.store_of_lt (by omega : g.m + n < 1024), hloop, if_pos (by omega : g.m + n > 0), hsub,
      hmove, pure, Except.pure]
  · rw [hmoved.slice, hb₃, hpost']
  · rw [hmoved.slice, hb₃]
    exact hr

theorem GrepInv.step (h : GrepInv pattern ls g) (hls : Lines ls) {n : Nat} {g' : State}
    (hstep : (grepSys pattern (joinLines ls)).step g n g') :
    GrepInv pattern ls g' ∧ g'.passesLeft < g.passesLeft := by
  obtain ⟨hdone, hn, hpass⟩ := hstep
  obtain ⟨g'', hpass', hinv, hinput, hexit⟩ := h.pass hls hn
  rw [hpass', Except.ok.injEq] at hpass
  subst hpass
  refine ⟨hinv, ?_⟩
  unfold State.passesLeft
  rw [hinput, hdone, List.length_drop]
  by_cases hn0 : n = 0
  · -- the last `read`: nothing was left
    have hempty : g.input = [] := by
      by_contra hne
      exact absurd (hn.pos hne) (by omega)
    simp [hexit.mpr hn0, hempty]
  · have hle := hn.le_input
    have : g''.done = false := by simpa [hn0] using hexit
    simp only [this]
    omega

/-- Until the loop exits, `read` can always return something the contract allows. -/
theorem GrepInv.progress (h : GrepInv pattern ls g) (hls : Lines ls) (hdone : g.done = false) :
    ∃ n g', (grepSys pattern (joinLines ls)).step g n g' := by
  have hm := h.m_le hls
  have hread : ReadOk g (if g.input = [] then 0 else 1) := by
    refine ⟨by split <;> omega, ?_, fun hne => by simp [hne]⟩
    split
    · exact Nat.zero_le _
    · exact List.length_pos_iff.mpr ‹_›
  obtain ⟨g', hpass, -⟩ := h.pass hls hread
  exact ⟨_, g', hdone, hread, hpass⟩

end Pass

theorem grepInv_invariant (pattern : List UInt8) {ls : List (List UInt8)} (hls : Lines ls) :
    (grepSys pattern (joinLines ls)).Invariant (GrepInv pattern ls) :=
  TSys.Invariant.of_inductive (fun _ hg => GrepInv.init hg) fun _ _ _ h hstep => (h.step hls hstep).1

/-- Every run from a reachable state uses up passes: it is no longer than the
passes left. -/
theorem run_length_le (pattern : List UInt8) {ls : List (List UInt8)} (hls : Lines ls)
    {g g' : State} {es : List Nat} (hrun : (grepSys pattern (joinLines ls)).Run g es g')
    (hg : (grepSys pattern (joinLines ls)).Reachable g) : es.length + g'.passesLeft ≤ g.passesLeft := by
  induction hrun with
  | nil => simp
  | cons hstep _ ih =>
    have hlt := (grepInv_invariant pattern hls _ hg |>.step hls hstep).2
    have := ih (hg.step hstep)
    simp only [List.length_cons]
    omega

theorem grep_lines (pattern : List UInt8) {ls : List (List UInt8)} (hls : Lines ls) :
    (∀ g, (grepSys pattern (joinLines ls)).Reachable g → g.done = false →
      ∀ n, ReadOk g n → ∃ g', grepPass pattern g n = .ok g') ∧
    (∀ g, (grepSys pattern (joinLines ls)).Reachable g → g.done = false →
      ∃ n g', (grepSys pattern (joinLines ls)).step g n g') ∧
    (∀ g es g', (grepSys pattern (joinLines ls)).init g →
      (grepSys pattern (joinLines ls)).Run g es g' → es.length ≤ (joinLines ls).length + 1) ∧
    (∀ g, (grepSys pattern (joinLines ls)).Reachable g → g.done = true →
      g.out = grepOutput pattern ls) := by
  have hinv := grepInv_invariant pattern hls
  refine ⟨fun g hg _ n hn => ?_, fun g hg hdone => (hinv g hg).progress hls hdone,
    fun g es g' hg hrun => ?_, fun g hg hdone => (hinv g hg).output hdone⟩
  · obtain ⟨g', hpass, -⟩ := (hinv g hg).pass hls hn
    exact ⟨g', hpass⟩
  · -- a run starts with every input byte unread and the loop running
    have hle := run_length_le pattern hls hrun (.init hg)
    obtain ⟨-, hinput, -, hdone⟩ := hg
    simp only [State.passesLeft, hinput, hdone] at hle
    simp at hle
    omega

theorem grep_lines_two :
    Lines [[97, 98], [99]] ∧
      ∀ g, (grepSys [98] (joinLines [[97, 98], [99]])).Reachable g → g.done = true →
        g.out = [97, 98, 10] :=
  have hls : Lines [[97, 98], [99]] := by unfold Lines; decide
  ⟨hls, fun g hg hdone => ((grep_lines [98] hls).2.2.2 g hg hdone).trans (by decide)⟩

end Xv6.User.Grep
