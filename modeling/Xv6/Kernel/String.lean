import Mathlib.Data.List.TakeWhile
import Xv6.Kernel.Fs.Path
import Xv6.Lib.Compare

/-!
# String routines of the kernel (`kernel/string.c`)

`memset`, `memcmp`, `strncmp`, `strncpy` and `safestrcpy` on buffers of
bytes, a pointer being an offset into its buffer and every access checked as
in `Xv6.Lib.Buffer`, so that a call that returns stayed inside its buffers.
Each loop is a recursion on its count.

* `memsetLoop_spec`, `memcmp_spec`, `strncmp_spec`: `memset` fills its range;
  `memcmp` and `strncmp` return a three-way comparison (`Compares`) of their
  ranges, `strncmp` of the strings the ranges hold up to their first NUL;
* `strncpy_spec`, `safestrcpy_spec`: `strncpy` copies a string of at most
  `n` bytes and pads the rest of the `n` with NULs, so that a string of `n`
  bytes is left with no NUL after it; `safestrcpy` copies at most `n - 1`
  bytes and always a NUL after them.

The directory layer of `kernel/fs.c` compares names with
`namecmp(s, t) = strncmp(s, t, DIRSIZ)` and writes them with
`strncpy(de.name, name, DIRSIZ)`. Its model reads names as lists (`namecmp`,
`direntBytes`): `namecmp_refines_strncmp` and `dirent_name_refines_strncpy`
show that those lists are what the C routines compute on the buffers the
kernel passes them, and `strncmp_strncpy` that a name copied by `strncpy`
compares equal to its source, a name of `DIRSIZ` bytes with no NUL included.
-/

namespace Xv6.Kernel

open Xv6.Lib

variable {a b : Nat}

/-! ## Bytes as `unsigned char` -/

theorem byte_lt_iff (x y : UInt8) : x < y ↔ (x.toNat : Int) < y.toNat := by
  rw [UInt8.lt_iff_toNat_lt]
  omega

theorem byte_injective : Function.Injective fun x : UInt8 => (x.toNat : Int) :=
  fun _ _ h => UInt8.toNat_inj.mp (by simp only at h; omega)

theorem takeWhile_ne_zero_cons {x : UInt8} (hx : x ≠ 0) (l : List UInt8) :
    (x :: l).takeWhile (· != 0) = x :: l.takeWhile (· != 0) :=
  List.takeWhile_cons_of_pos (bne_iff_ne.mpr hx)

theorem takeWhile_ne_zero_zero (l : List UInt8) : ((0 : UInt8) :: l).takeWhile (· != 0) = [] :=
  List.takeWhile_cons_of_neg (by decide)

/-! ## `memset` -/

/-- The loop of `memset(dst, c, n)` from `dst + i`: `cdst[i] = c` for `i < n`. -/
def memsetLoop (d : Bytes a) (i : Nat) (v : UInt8) : Nat → Except String (Bytes a)
  | 0 => .ok d
  | n + 1 => do
    let d ← d.store i v
    memsetLoop d (i + 1) v n

/-- `memset(dst, c, n)`, the `int` `c` stored as a `char`. -/
def memset (d : Bytes a) (i : Nat) (c : Int) (n : Nat) : Except String (Bytes a) :=
  memsetLoop d i (UInt8.ofInt c) n

theorem memsetLoop_spec (v : UInt8) (n : Nat) :
    ∀ {d : Bytes a} {i : Nat}, i + n ≤ a →
      ∃ d', memsetLoop d i v n = .ok d' ∧ d'.slice i n = List.replicate n v ∧
        d.SameOutside d' i n := by
  induction n with
  | zero => intro d i _; exact ⟨d, rfl, rfl, Bytes.SameOutside.refl d i 0⟩
  | succ n ih =>
    intro d i hi
    obtain ⟨d', hrun, hslice, hsame⟩ := ih (d := d.set i v) (i := i + 1) (by omega)
    refine ⟨d', ?_, ?_, hsame.set_cons⟩
    · simp only [memsetLoop, Bytes.store_of_lt (by omega : i < a), bind, Except.bind]
      exact hrun
    · rw [hsame.slice_cons (by omega), hslice, List.replicate_succ]

/-! ## `memcmp` -/

/-- `memcmp(v1, v2, n)`:
`while (n-- > 0) { if (*s1 != *s2) return *s1 - *s2; s1++, s2++; } return 0;`
with the bytes read as `unsigned char`. -/
def memcmp (p : Bytes a) (i : Nat) (q : Bytes b) (j : Nat) : Nat → Except String Int
  | 0 => .ok 0
  | n + 1 => do
    let x ← p.load i
    let y ← q.load j
    if x ≠ y then pure ((x.toNat : Int) - y.toNat) else memcmp p (i + 1) q (j + 1) n

/-- `memcmp` compares its two ranges in the lexicographic order. -/
theorem memcmp_spec (p : Bytes a) (q : Bytes b) (n : Nat) :
    ∀ {i j : Nat}, i + n ≤ a → j + n ≤ b →
      ∃ r, memcmp p i q j n = .ok r ∧ Compares r (p.slice i n) (q.slice j n) := by
  induction n with
  | zero => intro i j _ _; exact ⟨0, rfl, Compares.nil⟩
  | succ n ih =>
    intro i j hi hj
    have hrun : memcmp p i q j (n + 1) = if p.get i ≠ q.get j
        then .ok ((p.get i).toNat - (q.get j).toNat) else memcmp p (i + 1) q (j + 1) n := by
      simp only [memcmp, Bytes.load_of_lt (by omega : i < a), Bytes.load_of_lt (by omega : j < b),
        bind, Except.bind, pure, Except.pure]
    rw [hrun, Bytes.slice_succ, Bytes.slice_succ]
    by_cases hxy : p.get i = q.get j
    · -- equal bytes: the rest decides
      obtain ⟨r, hr, hcmp⟩ := ih (i := i + 1) (j := j + 1) (by omega) (by omega)
      rw [if_neg (not_not.mpr hxy), hxy]
      exact ⟨r, hr, hcmp.cons byte_lt_iff _⟩
    · rw [if_pos hxy]
      exact ⟨_, rfl, Compares.head byte_lt_iff byte_injective hxy _ _⟩

/-! ## `strncmp` -/

/-- `strncmp(p, q, n)`: `while (n > 0 && *p && *p == *q) n--, p++, q++;`, then
`0` if `n` ran out, else `(uchar)*p - (uchar)*q`. The loop reads `*q` only
when `*p` is not NUL, and the return reads it then: either way it is read. -/
def strncmp (p : Bytes a) (i : Nat) (q : Bytes b) (j : Nat) : Nat → Except String Int
  | 0 => .ok 0
  | n + 1 => do
    let x ← p.load i
    let y ← q.load j
    if x ≠ 0 ∧ x = y then strncmp p (i + 1) q (j + 1) n else pure ((x.toNat : Int) - y.toNat)

section Strncmp

variable {p : Bytes a} {q : Bytes b} {i j n : Nat}

theorem strncmp_succ (hi : i < a) (hj : j < b) :
    strncmp p i q j (n + 1) = if p.get i ≠ 0 ∧ p.get i = q.get j then strncmp p (i + 1) q (j + 1) n
      else .ok ((p.get i).toNat - (q.get j).toNat) := by
  simp only [strncmp, Bytes.load_of_lt hi, Bytes.load_of_lt hj, bind, Except.bind, pure,
    Except.pure]

/-- Where the scan stops at byte `x` of `p` against `y` of `q`, their
difference compares the strings, whichever of the two has ended there. -/
theorem compares_stop {x y : UInt8} (h : ¬(x ≠ 0 ∧ x = y)) (s t : List UInt8) :
    Compares ((x.toNat : Int) - y.toNat) ((x :: s).takeWhile (· != 0))
      ((y :: t).takeWhile (· != 0)) := by
  have hpos : ∀ z : UInt8, z ≠ 0 → (0 : Int) < z.toNat := fun z hz => by
    have : z.toNat ≠ 0 := fun e => hz (UInt8.toNat_inj.mp e)
    omega
  by_cases hx : x = 0
  · -- `p`'s string has ended
    subst hx
    rw [takeWhile_ne_zero_zero]
    by_cases hy : y = 0
    · subst hy
      rw [takeWhile_ne_zero_zero]
      exact Compares.nil
    · rw [takeWhile_ne_zero_cons hy]
      exact Compares.nil_cons (by have := hpos y hy; simp only [UInt8.toNat_zero]; omega) _ _
  · have hxy : x ≠ y := fun e => h ⟨hx, e⟩
    rw [takeWhile_ne_zero_cons hx]
    by_cases hy : y = 0
    · -- `q`'s string has ended
      subst hy
      rw [takeWhile_ne_zero_zero]
      exact Compares.cons_nil (by have := hpos x hx; simp only [UInt8.toNat_zero]; omega) _ _
    · rw [takeWhile_ne_zero_cons hy]
      exact Compares.head byte_lt_iff byte_injective hxy _ _

/-- `strncmp` compares the strings its two ranges of `n` bytes hold, each up
to its first NUL, in the lexicographic order. -/
theorem strncmp_spec (p : Bytes a) (q : Bytes b) (n : Nat) :
    ∀ {i j : Nat}, i + n ≤ a → j + n ≤ b →
      ∃ r, strncmp p i q j n = .ok r ∧
        Compares r ((p.slice i n).takeWhile (· != 0)) ((q.slice j n).takeWhile (· != 0)) := by
  induction n with
  | zero => intro i j _ _; exact ⟨0, rfl, Compares.nil⟩
  | succ n ih =>
    intro i j hi hj
    rw [strncmp_succ (by omega) (by omega), Bytes.slice_succ, Bytes.slice_succ]
    by_cases hgo : p.get i ≠ 0 ∧ p.get i = q.get j
    · -- the same byte, not NUL, in both: the scan goes on
      obtain ⟨r, hr, hcmp⟩ := ih (i := i + 1) (j := j + 1) (by omega) (by omega)
      rw [if_pos hgo, ← hgo.2, takeWhile_ne_zero_cons hgo.1, takeWhile_ne_zero_cons hgo.1]
      exact ⟨r, hr, hcmp.cons byte_lt_iff _⟩
    · rw [if_neg hgo]
      exact ⟨_, rfl, compares_stop hgo _ _⟩

end Strncmp

/-! ## Strings of a bounded length -/

/-- From offset `j`, `t` holds the string `s` as a copy bounded by `n` bytes
reads it: the bytes of `s`, none of them NUL, and after them a NUL inside the
buffer, unless `s` has the `n` bytes. -/
structure StrAt (t : Bytes b) (j n : Nat) (s : List UInt8) : Prop where
  slice : t.slice j s.length = s
  no_nul : 0 ∉ s
  in_bounds : j + s.length ≤ b
  stop : s.length = n ∨ (s.length < n ∧ j + s.length < b ∧ t.get (j + s.length) = 0)

namespace StrAt

variable {t : Bytes b} {j n : Nat}

theorem nil_of_zero {s : List UInt8} (h : StrAt t j 0 s) : s = [] := by
  rcases h.stop with h0 | ⟨h0, -⟩
  · exact List.eq_nil_of_length_eq_zero h0
  · omega

/-- An empty string with room left ends at a NUL. -/
theorem nul (h : StrAt t j (n + 1) []) : j < b ∧ t.get j = 0 := by
  rcases h.stop with h0 | ⟨-, hj, hnul⟩
  · simp at h0
  · exact ⟨by simpa using hj, by simpa using hnul⟩

/-- A string's first byte, and the rest of it from the next offset. -/
theorem cons {x : UInt8} {s : List UInt8} (h : StrAt t j (n + 1) (x :: s)) :
    j < b ∧ t.get j = x ∧ x ≠ 0 ∧ StrAt t (j + 1) n s := by
  have hslice := h.slice
  rw [List.length_cons, Bytes.slice_succ, List.cons.injEq] at hslice
  have hb := h.in_bounds
  simp only [List.length_cons] at hb
  refine ⟨by omega, hslice.1, fun e => h.no_nul (e ▸ List.mem_cons_self), ⟨hslice.2,
    fun h0 => h.no_nul (List.mem_cons_of_mem x h0), by omega, ?_⟩⟩
  rcases h.stop with h0 | ⟨h0, hj, hnul⟩
  · exact .inl (by simpa using h0)
  · refine .inr ⟨by simp at h0; omega, by simp at hj; omega, ?_⟩
    simpa [Nat.add_assoc, Nat.add_comm 1] using hnul

theorem of_nul {n : Nat} (hj : j < b) (h : t.get j = 0) : StrAt t j (n + 1) [] :=
  ⟨rfl, List.not_mem_nil, by simp; omega, .inr ⟨by simp, by simpa using hj, by simpa using h⟩⟩

theorem of_cons {x : UInt8} {s : List UInt8} (hx : t.get j = x) (hx0 : x ≠ 0)
    (h : StrAt t (j + 1) n s) : StrAt t j (n + 1) (x :: s) := by
  refine ⟨?_, ?_, ?_, ?_⟩
  · rw [List.length_cons, Bytes.slice_succ, hx, h.slice]
  · rw [List.mem_cons, not_or]
    exact ⟨fun e => hx0 e.symm, h.no_nul⟩
  · have := h.in_bounds
    simp only [List.length_cons]
    omega
  · rcases h.stop with h0 | ⟨h0, hj', hnul⟩
    · exact .inl (by simp [h0])
    · refine .inr ⟨by simp; omega, by simp; omega, ?_⟩
      simpa [Nat.add_assoc, Nat.add_comm 1] using hnul

/-- A range of `n` bytes inside the buffer holds its bytes up to the first NUL. -/
theorem of_slice (n : Nat) : ∀ {j : Nat}, j + n ≤ b → StrAt t j n ((t.slice j n).takeWhile (· != 0)) := by
  induction n with
  | zero => intro j hj; exact ⟨rfl, List.not_mem_nil, by simpa using hj, .inl rfl⟩
  | succ n ih =>
    intro j hj
    rw [Bytes.slice_succ]
    by_cases hx : t.get j = 0
    · rw [hx, takeWhile_ne_zero_zero]
      exact of_nul (by omega) hx
    · rw [takeWhile_ne_zero_cons hx]
      exact of_cons rfl hx (ih (by omega))

end StrAt

/-! ## `strncpy` -/

/-- `strncpy(s, t, n)`'s first loop, `while (n-- > 0 && (*s++ = *t++) != 0);`,
then its second, `while (n-- > 0) *s++ = 0;`, which is `memset`'s loop with
`0`. Once the count is spent the first loop leaves it at `-1` and the second
does nothing. -/
def strncpyLoop (d : Bytes a) (i : Nat) (t : Bytes b) (j : Nat) : Nat → Except String (Bytes a)
  | 0 => .ok d
  | n + 1 => do
    let c ← t.load j
    let d ← d.store i c
    if c = 0 then memsetLoop d (i + 1) 0 n else strncpyLoop d (i + 1) t (j + 1) n

/-- `strncpy(s, t, n)`; a count below `1` copies nothing. -/
def strncpy (d : Bytes a) (i : Nat) (t : Bytes b) (j : Nat) (n : Int) : Except String (Bytes a) :=
  strncpyLoop d i t j n.toNat

/-- `strncpy` copies the string and pads the `n` bytes with NULs: a string of
`n` bytes gets none. -/
theorem strncpyLoop_spec (t : Bytes b) (n : Nat) :
    ∀ {d : Bytes a} {i j : Nat} {s : List UInt8}, StrAt t j n s → i + n ≤ a →
      ∃ d', strncpyLoop d i t j n = .ok d' ∧
        d'.slice i n = s ++ List.replicate (n - s.length) 0 ∧ d.SameOutside d' i n := by
  induction n with
  | zero =>
    intro d i j s hs _
    rw [hs.nil_of_zero]
    exact ⟨d, rfl, rfl, Bytes.SameOutside.refl d i 0⟩
  | succ n ih =>
    intro d i j s hs hi
    cases s with
    | nil =>
      -- the NUL is copied, then the rest is padded
      obtain ⟨hj, hnul⟩ := hs.nul
      obtain ⟨d', hpad, hslice, hsame⟩ := memsetLoop_spec 0 n (d := d.set i 0) (i := i + 1)
        (by omega)
      refine ⟨d', ?_, ?_, hsame.set_cons⟩
      · simp only [strncpyLoop, Bytes.load_of_lt hj, hnul, Bytes.store_of_lt (by omega : i < a),
          bind, Except.bind, if_true]
        exact hpad
      · rw [hsame.slice_cons (by omega), hslice, List.nil_append, List.length_nil,
          Nat.sub_zero, List.replicate_succ]
    | cons x s =>
      obtain ⟨hj, hx, hx0, hs'⟩ := hs.cons
      obtain ⟨d', hrun, hslice, hsame⟩ := ih (d := d.set i x) (i := i + 1) hs' (by omega)
      refine ⟨d', ?_, ?_, hsame.set_cons⟩
      · simp only [strncpyLoop, Bytes.load_of_lt hj, hx, Bytes.store_of_lt (by omega : i < a),
          bind, Except.bind, if_neg hx0]
        exact hrun
      · rw [hsame.slice_cons (by omega), hslice, List.length_cons, List.cons_append,
          Nat.add_sub_add_right]

theorem strncpy_spec (t : Bytes b) {n : Int} {d : Bytes a} {i j : Nat} {s : List UInt8}
    (hs : StrAt t j n.toNat s) (hi : i + n.toNat ≤ a) :
    ∃ d', strncpy d i t j n = .ok d' ∧
      d'.slice i n.toNat = s ++ List.replicate (n.toNat - s.length) 0 ∧
      d.SameOutside d' i n.toNat :=
  strncpyLoop_spec t n.toNat hs hi

/-! ## `safestrcpy` -/

/-- `safestrcpy`'s loop with `k` passes left: `while (--n > 0 && (*s++ = *t++)
!= 0);`, then `*s = 0`. After it has copied the NUL the pointer is past it, so
`*s = 0` writes a second NUL. -/
def safestrcpyLoop (d : Bytes a) (i : Nat) (t : Bytes b) (j : Nat) : Nat → Except String (Bytes a)
  | 0 => d.store i 0
  | k + 1 => do
    let c ← t.load j
    let d ← d.store i c
    if c = 0 then d.store (i + 1) 0 else safestrcpyLoop d (i + 1) t (j + 1) k

/-- `safestrcpy(s, t, n)`: nothing for `n ≤ 0`, else at most `n - 1` bytes
and a NUL. -/
def safestrcpy (d : Bytes a) (i : Nat) (t : Bytes b) (j : Nat) (n : Int) : Except String (Bytes a) :=
  if n ≤ 0 then .ok d else safestrcpyLoop d i t j (n.toNat - 1)

/-- The loop leaves the string cut to `k` bytes and a NUL after it, and
writes nothing outside its `k + 1` bytes. -/
theorem safestrcpyLoop_spec (t : Bytes b) (k : Nat) :
    ∀ {d : Bytes a} {i j : Nat} {s : List UInt8}, StrAt t j k s → i + k + 1 ≤ a →
      ∃ d', safestrcpyLoop d i t j k = .ok d' ∧ d'.slice i (s.length + 1) = s ++ [0] ∧
        d.SameOutside d' i (k + 1) := by
  induction k with
  | zero =>
    intro d i j s hs hi
    rw [hs.nil_of_zero]
    refine ⟨d.set i 0, Bytes.store_of_lt (by omega) 0, ?_, ?_⟩
    · rw [List.length_nil, Bytes.slice_succ, Bytes.get_set_self d (by omega), Bytes.slice_zero]
      rfl
    · exact fun m hm => Bytes.get_set_of_ne d (by omega) 0
  | succ k ih =>
    intro d i j s hs hi
    cases s with
    | nil =>
      -- the NUL is copied, and `*s = 0` writes another after it
      obtain ⟨hj, hnul⟩ := hs.nul
      refine ⟨(d.set i 0).set (i + 1) 0, ?_, ?_, ?_⟩
      · simp only [safestrcpyLoop, Bytes.load_of_lt hj, hnul, Bytes.store_of_lt (by omega : i < a),
          bind, Except.bind, if_true, Bytes.store_of_lt (by omega : i + 1 < a)]
      · rw [List.length_nil, Bytes.slice_succ, Bytes.get_set_of_ne _ (by omega),
          Bytes.get_set_self d (by omega), Bytes.slice_zero]
        rfl
      · intro m hm
        rw [Bytes.get_set_of_ne _ (by omega), Bytes.get_set_of_ne d (by omega)]
    | cons x s =>
      obtain ⟨hj, hx, hx0, hs'⟩ := hs.cons
      obtain ⟨d', hrun, hslice, hsame⟩ := ih (d := d.set i x) (i := i + 1) hs' (by omega)
      refine ⟨d', ?_, ?_, hsame.set_cons⟩
      · simp only [safestrcpyLoop, Bytes.load_of_lt hj, hx, Bytes.store_of_lt (by omega : i < a),
          bind, Except.bind, if_neg hx0]
        exact hrun
      · rw [List.length_cons, hsame.slice_cons (by omega), hslice, List.cons_append]

/-- `safestrcpy(s, t, n)` with `n > 0` leaves at `s` a NUL-terminated string:
the source's string cut to `n - 1` bytes. -/
theorem safestrcpy_spec (t : Bytes b) {n : Int} (hn : 0 < n) {d : Bytes a} {i j : Nat}
    {s : List UInt8} (hs : StrAt t j (n.toNat - 1) s) (hi : i + n.toNat ≤ a) :
    ∃ d', safestrcpy d i t j n = .ok d' ∧ d'.cstring i = .ok s ∧ d.SameOutside d' i n.toNat := by
  have hk : n.toNat - 1 + 1 = n.toNat := by omega
  obtain ⟨d', hrun, hslice, hsame⟩ := safestrcpyLoop_spec t (n.toNat - 1) (d := d) (i := i) hs
    (by omega)
  have hlen : s.length ≤ n.toNat - 1 := by rcases hs.stop with h | h <;> omega
  refine ⟨d', by rw [safestrcpy, if_neg (by omega)]; exact hrun,
    Bytes.cstring_of_slice s hslice hs.no_nul (by omega), hk ▸ hsame⟩

/-- `userinit`'s `safestrcpy(p->name, "initcode", sizeof(p->name))`. -/
theorem safestrcpy_initcode :
    StrAt ((Bytes.zero : Bytes 9).setList 0 [105, 110, 105, 116, 99, 111, 100, 101]) 0 15
      [105, 110, 105, 116, 99, 111, 100, 101] ∧
    ∃ d', safestrcpy (Bytes.zero : Bytes 16) 0
        ((Bytes.zero : Bytes 9).setList 0 [105, 110, 105, 116, 99, 111, 100, 101]) 0 16 = .ok d' ∧
      d'.cstring 0 = .ok [105, 110, 105, 116, 99, 111, 100, 101] ∧ Bytes.zero.SameOutside d' 0 16 :=
  have hs : StrAt ((Bytes.zero : Bytes 9).setList 0 [105, 110, 105, 116, 99, 111, 100, 101]) 0 15
      [105, 110, 105, 116, 99, 111, 100, 101] :=
    ⟨by decide, by decide, by decide, .inr ⟨by decide, by decide, by decide⟩⟩
  ⟨hs, safestrcpy_spec _ (by decide) hs (by decide)⟩

/-! ## Names of directory entries -/

/-- `namecmp(s, t) = strncmp(s, t, DIRSIZ)` on two names of `DIRSIZ` bytes
returns `0` exactly when the model's `namecmp` finds their bytes equal. -/
theorem strncmp_dirsiz (s t : Bytes dirsiz) :
    strncmp s 0 t 0 dirsiz = .ok 0 ↔ namecmp (s.slice 0 dirsiz) (t.slice 0 dirsiz) = true := by
  obtain ⟨r, hr, hcmp⟩ := strncmp_spec s t dirsiz (Nat.le_refl _) (Nat.le_refl _)
  have htake : ∀ u : Bytes dirsiz, (u.slice 0 dirsiz).take dirsiz = u.slice 0 dirsiz :=
    fun u => List.take_of_length_le (by simp)
  rw [hr, Except.ok.injEq, hcmp.eq_iff, namecmp, htake, htake, beq_iff_eq]

/-- Looking a path element up, `dirlookup` compares the name `skipelem` has
copied into `char name[DIRSIZ]` with each entry's `DIRSIZ` bytes by `strncmp`:
it finds them equal exactly when the model's `namecmp` does on the element cut
to `DIRSIZ`, whatever `name` held before. -/
theorem namecmp_refines_strncmp (name : Bytes dirsiz) {c : List UInt8} (h0 : 0 ∉ c)
    (de : Bytes dirsiz) :
    ∃ name', copyName name c = .ok name' ∧
      (strncmp name' 0 de 0 dirsiz = .ok 0 ↔ namecmp (c.take dirsiz) (de.slice 0 dirsiz) = true) := by
  obtain ⟨name', hcopy, -, -, hread⟩ := copyName_spec name h0
  refine ⟨name', hcopy, ?_⟩
  rw [strncmp_dirsiz, namecmp_copy h0 hread]

/-- The element `ls` against an entry of NULs. -/
theorem namecmp_refines_strncmp_ls : 0 ∉ ([108, 115] : List UInt8) ∧ ∃ name',
    copyName Bytes.zero [108, 115] = .ok name' ∧
      (strncmp name' 0 (Bytes.zero : Bytes dirsiz) 0 dirsiz = .ok 0 ↔
        namecmp (([108, 115] : List UInt8).take dirsiz) ((Bytes.zero : Bytes dirsiz).slice 0 dirsiz) = true) :=
  ⟨by decide, namecmp_refines_strncmp Bytes.zero (by decide) Bytes.zero⟩

/-- `dirlink` writes the name `skipelem` has copied into `name` with
`strncpy(de.name, name, DIRSIZ)`: the entry gets the bytes after the inode
number that the model's `direntBytes` puts there, the element cut to
`DIRSIZ` and padded with NULs. -/
theorem dirent_name_refines_strncpy (name : Bytes dirsiz) {c : List UInt8} (h0 : 0 ∉ c)
    (de : Bytes dirsiz) (inum : Nat) :
    ∃ name' de', copyName name c = .ok name' ∧ strncpy de 0 name' 0 dirsiz = .ok de' ∧
      de'.slice 0 dirsiz = (direntBytes inum (c.take dirsiz)).drop 2 := by
  obtain ⟨name', hcopy, -, -, hread⟩ := copyName_spec name h0
  have hs := StrAt.of_slice (t := name') (j := 0) dirsiz (Nat.le_refl _)
  rw [hread] at hs
  obtain ⟨de', hrun, hslice, -⟩ := strncpy_spec name' (n := dirsiz) (d := de) (i := 0) hs
    (Nat.le_refl _)
  rw [Int.toNat_natCast] at hslice
  refine ⟨name', de', hcopy, hrun, ?_⟩
  rw [hslice, direntBytes, List.take_take, min_self]
  simp

/-- The element `ls` linked as inode `5`. -/
theorem dirent_name_refines_strncpy_ls : 0 ∉ ([108, 115] : List UInt8) ∧ ∃ name' de',
    copyName Bytes.zero [108, 115] = .ok name' ∧
      strncpy (Bytes.zero : Bytes dirsiz) 0 name' 0 dirsiz = .ok de' ∧
      de'.slice 0 dirsiz = (direntBytes 5 (([108, 115] : List UInt8).take dirsiz)).drop 2 :=
  ⟨by decide, dirent_name_refines_strncpy Bytes.zero (by decide) Bytes.zero 5⟩

/-- A name `strncpy` has copied compares equal to its source under `strncmp`
with the same bound, also when it fills the `n` bytes and has no NUL. -/
theorem strncmp_strncpy {t : Bytes b} {d : Bytes a} {i j : Nat} {n : Nat}
    (hj : j + n ≤ b) (hi : i + n ≤ a) :
    ∃ d', strncpy d i t j n = .ok d' ∧ strncmp t j d' i n = .ok 0 := by
  obtain ⟨d', hrun, hslice, -⟩ := strncpy_spec t (n := n) (d := d) (i := i)
    (StrAt.of_slice (t := t) n hj) (by simpa using hi)
  obtain ⟨r, hr, hcmp⟩ := strncmp_spec t d' n hj hi
  -- the copy reads back as the string: its padding starts with a NUL
  have hpad : ∀ m, (List.replicate m (0 : UInt8)).takeWhile (· != 0) = [] := fun m => by
    cases m <;> rfl
  have hsame : (d'.slice i n).takeWhile (· != 0) = (t.slice j n).takeWhile (· != 0) := by
    rw [Int.toNat_natCast] at hslice
    rw [hslice, List.takeWhile_append_of_pos
      (fun x hx => List.mem_takeWhile_imp (p := fun x : UInt8 => x != 0) hx), hpad,
      List.append_nil]
  exact ⟨d', hrun, by rw [hr, hcmp.eq_iff.mpr hsame.symm]⟩

/-- A two-byte name with no NUL, copied into a two-byte entry, compares equal. -/
theorem strncmp_strncpy_full :
    ∃ d', strncpy (Bytes.zero : Bytes 2) 0 ((Bytes.zero : Bytes 2).setList 0 [104, 105]) 0 2 = .ok d' ∧
      strncmp ((Bytes.zero : Bytes 2).setList 0 [104, 105]) 0 d' 0 2 = .ok 0 :=
  strncmp_strncpy (by decide) (by decide)

end Xv6.Kernel
