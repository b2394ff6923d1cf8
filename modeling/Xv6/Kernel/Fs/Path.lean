import Xv6.Kernel.Fs.Dir
import Xv6.Lib.Buffer

/-!
# The elements of a path (`kernel/fs.c`)

A path names the inode reached by looking up its elements in turn, its
elements being the maximal runs of bytes other than `/`. `components` states
them apart from the code, with `List.splitOn`.

* `skipelem_none`, `skipelem_some`: `skipelem` takes the elements off the
  front of the path one at a time, leaves no `/` in front of what is left, and
  leaves nothing exactly after the last one;
* `copyName_spec`: the copy of an element into `char name[DIRSIZ]` stays
  inside `name`, holds the element's first `DIRSIZ` bytes and a NUL after a
  shorter one, and reads as the element cut to `DIRSIZ` for `namecmp`;
  `skipelemName` is `skipelem` with that copy;
* `namexLoop_eq_walk`: `namex`'s loop is `walkPath` over the elements: each is
  looked up in the directory reached so far, which must be a directory, and
  `nameiparent` stops before the last one.
-/

namespace Xv6.Kernel

open Xv6.Lib

/-! ## Elements -/

/-- The elements of a path: its maximal runs of bytes other than `/`. -/
def components (path : List UInt8) : List (List UInt8) :=
  (path.splitOn 47).filter fun c => !c.isEmpty

@[simp] theorem components_nil : components [] = [] := rfl

theorem components_cons_slash (p : List UInt8) : components (47 :: p) = components p := by
  simp [components, List.splitOn_eq_splitOnP, List.splitOnP_cons_eq_if_modifyHead]

theorem components_of_slashes {s : List UInt8} (hs : ∀ x ∈ s, x = 47) (p : List UInt8) :
    components (s ++ p) = components p := by
  induction s with
  | nil => rfl
  | cons x s ih =>
    rw [List.forall_mem_cons] at hs
    rw [List.cons_append, hs.1, components_cons_slash, ih hs.2]

/-- A run without `/` ended by a `/` is the first element. -/
theorem components_elem {c : List UInt8} (hc : ∀ x ∈ c, x ≠ 47) (hne : c ≠ []) (r : List UInt8) :
    components (c ++ 47 :: r) = c :: components r := by
  simp only [components, List.splitOn_eq_splitOnP]
  rw [List.splitOnP_append_cons_of_forall_mem (fun x hx => by simpa using hc x hx) _ (by simp)]
  simp [hne]

/-- A run without `/` at the end of a path is its last element. -/
theorem components_last {c : List UInt8} (hc : ∀ x ∈ c, x ≠ 47) (hne : c ≠ []) :
    components c = [c] := by
  simp only [components, List.splitOn_eq_splitOnP]
  rw [List.splitOnP_eq_singleton (p := fun x => x == 47) (fun x hx => by simpa using hc x hx)]
  simp [hne]

theorem of_mem_takeWhile {p : UInt8 → Bool} {l : List UInt8} {x : UInt8}
    (h : x ∈ l.takeWhile p) : p x = true := by
  induction l with
  | nil => simp at h
  | cons y l ih =>
    rw [List.takeWhile_cons] at h
    split at h
    · rcases List.mem_cons.mp h with rfl | h
      · assumption
      · exact ih h
    · simp at h

theorem components_dropWhile (path : List UInt8) :
    components (path.dropWhile (· == 47)) = components path := by
  conv_rhs => rw [← List.takeWhile_append_dropWhile (p := (· == 47)) (l := path)]
  exact (components_of_slashes (fun x hx => by simpa using of_mem_takeWhile hx) _).symm

/-- A path that does not start with `/` has no elements only when it is empty. -/
theorem components_eq_nil_iff {path : List UInt8} (h : path.head? ≠ some 47) :
    components path = [] ↔ path = [] := by
  constructor
  · intro hc
    cases path with
    | nil => rfl
    | cons x p =>
      have hx : x ≠ 47 := fun hx => h (by rw [hx]; rfl)
      -- the run of bytes other than `/` from `x` on is an element
      have hne : (x :: p).takeWhile (· != 47) ≠ [] := by simp [hx]
      have hall : ∀ y ∈ (x :: p).takeWhile (· != 47), y ≠ 47 := fun y hy => by
        simpa using of_mem_takeWhile hy
      have hsplit := List.takeWhile_append_dropWhile (p := (· != 47)) (l := x :: p)
      have hhead := List.head?_dropWhile_not (· != 47) (x :: p)
      cases hd : (x :: p).dropWhile (· != 47) with
      | nil =>
        rw [hd, List.append_nil] at hsplit
        rw [← hsplit, components_last hall hne] at hc
        cases hc
      | cons z r =>
        rw [hd] at hsplit hhead
        simp only [List.head?_cons, bne_eq_false_iff_eq] at hhead
        rw [hhead] at hsplit
        rw [← hsplit, components_elem hall hne] at hc
        cases hc
  · rintro rfl
    rfl

/-! ## `skipelem` -/

theorem skipelem_none {path : List UInt8} : skipelem path = none ↔ components path = [] := by
  rw [← components_dropWhile]
  have hhead := List.head?_dropWhile_not (· == 47) path
  unfold skipelem
  cases hd : path.dropWhile (· == 47) with
  | nil => simp
  | cons x p =>
    rw [hd] at hhead
    simp only [List.head?_cons, beq_eq_false_iff_ne] at hhead
    simp only [reduceCtorEq, false_iff]
    rw [components_eq_nil_iff (by simpa using hhead)]
    exact List.cons_ne_nil x p

/-- `skipelem` takes off the first element, the first run of bytes other than
`/`, cut to `DIRSIZ` bytes: the rest of the path has no `/` in front, and is
empty exactly when that element was the last. -/
theorem skipelem_some {path name rest : List UInt8} (h : skipelem path = some (name, rest)) :
    components path = (path.dropWhile (· == 47)).takeWhile (· != 47) :: components rest ∧
      name = ((path.dropWhile (· == 47)).takeWhile (· != 47)).take dirsiz ∧
      (path.dropWhile (· == 47)).takeWhile (· != 47) <:+: path ∧ rest <:+ path ∧
      rest.length < path.length ∧ rest.head? ≠ some 47 ∧
      (rest = [] ↔ components rest = []) := by
  have hhead := List.head?_dropWhile_not (· == 47) path
  unfold skipelem at h
  cases hd : path.dropWhile (· == 47) with
  | nil => rw [hd] at h; cases h
  | cons x p =>
    rw [hd] at h hhead
    simp only [Option.some.injEq, Prod.mk.injEq] at h
    obtain ⟨rfl, rfl⟩ := h
    simp only [List.head?_cons, beq_eq_false_iff_ne] at hhead
    -- the element is the run of bytes other than `/` from `x` on
    have hne : (x :: p).takeWhile (· != 47) ≠ [] := by simp [hhead]
    have hall : ∀ y ∈ (x :: p).takeWhile (· != 47), y ≠ 47 := fun y hy => by
      simpa using of_mem_takeWhile hy
    have hsplit := List.takeWhile_append_dropWhile (p := (· != 47)) (l := x :: p)
    have hsuffix : x :: p <:+ path := hd ▸ List.dropWhile_suffix _
    have hpath : components path = components (x :: p) := by rw [← components_dropWhile, hd]
    have hsub : (x :: p).takeWhile (· != 47) <:+: path :=
      (List.takeWhile_prefix _).isInfix.trans hsuffix.isInfix
    have hnext := List.head?_dropWhile_not (· != 47) (x :: p)
    generalize (x :: p).takeWhile (· != 47) = c at hne hall hsplit hsub ⊢
    cases hr : (x :: p).dropWhile (· != 47) with
    | nil =>
      -- the last element: nothing is left
      rw [hr, List.append_nil] at hsplit
      have hlen := hsuffix.length_le
      simp only [List.length_cons] at hlen
      refine ⟨?_, rfl, hsub, List.nil_suffix, by simp; omega, by simp, by simp⟩
      rw [hpath, ← hsplit, components_last hall hne, List.dropWhile_nil, components_nil]
    | cons z r =>
      -- a `/` follows the element: the rest is what follows the slashes
      rw [hr] at hsplit hnext
      simp only [List.head?_cons, bne_eq_false_iff_eq] at hnext
      subst hnext
      rw [List.dropWhile_cons, if_pos (by decide)]
      have hrest : r.dropWhile (· == 47) <:+ x :: p := by
        rw [← hsplit]
        exact (List.dropWhile_suffix _).trans ((List.suffix_cons 47 r).trans (List.suffix_append _ _))
      have hlt : (r.dropWhile (· == 47)).length < (x :: p).length := by
        rw [← hsplit, List.length_append, List.length_cons]
        have := (List.dropWhile_suffix (p := (· == 47)) (l := r)).length_le
        have := List.length_pos_iff.mpr hne
        omega
      have hhead' := List.head?_dropWhile_not (· == 47) r
      have hnot : (r.dropWhile (· == 47)).head? ≠ some 47 := by
        intro h47
        rw [h47] at hhead'
        exact absurd hhead' (by decide)
      refine ⟨?_, rfl, hsub, hrest.trans hsuffix,
        lt_of_lt_of_le hlt hsuffix.length_le, hnot, (components_eq_nil_iff hnot).symm⟩
      rw [hpath, ← hsplit, components_elem hall hne, components_dropWhile]

/-! ## The copy into `name` -/

/-- The copy `skipelem` makes of an element `c` into `char name[DIRSIZ]`:
`memmove(name, s, DIRSIZ)` when it has `DIRSIZ` bytes or more, else
`memmove(name, s, len); name[len] = 0`. -/
def copyName (name : Bytes dirsiz) (c : List UInt8) : Except String (Bytes dirsiz) :=
  if c.length ≥ dirsiz then name.storeList 0 (c.take dirsiz)
  else do
    let name ← name.storeList 0 c
    name.store c.length 0

/-- `skipelem(path, name)`, with its copy into `name`. -/
def skipelemName (path : List UInt8) (name : Bytes dirsiz) :
    Except String (Option (Bytes dirsiz × List UInt8)) :=
  match path.dropWhile (· == 47) with
  | [] => .ok none
  | p => do
    let name ← copyName name (p.takeWhile (· != 47))
    pure (some (name, (p.dropWhile (· != 47)).dropWhile (· == 47)))

theorem takeWhile_ne_zero {c : List UInt8} (h : 0 ∉ c) : c.takeWhile (· != 0) = c := by
  induction c with
  | nil => rfl
  | cons x c ih =>
    rw [List.mem_cons, not_or] at h
    rw [List.takeWhile_cons, if_pos (bne_iff_ne.mpr fun e => h.1 e.symm), ih h.2]

/-- The copy stays inside `name`, holds the element's first `DIRSIZ` bytes
and a NUL after a shorter element, and reads as the element cut to `DIRSIZ`. -/
theorem copyName_spec (name : Bytes dirsiz) {c : List UInt8} (h0 : 0 ∉ c) :
    ∃ name', copyName name c = .ok name' ∧
      name'.slice 0 (min c.length dirsiz) = c.take dirsiz ∧
      (c.length < dirsiz → name'.get c.length = 0) ∧
      (name'.slice 0 dirsiz).takeWhile (· != 0) = c.take dirsiz := by
  have htake0 : 0 ∉ c.take dirsiz := fun h => h0 (List.mem_of_mem_take h)
  by_cases hlong : c.length ≥ dirsiz
  · -- `memmove(name, s, DIRSIZ)`: no room for a NUL
    have hlen : (c.take dirsiz).length = dirsiz := by rw [List.length_take]; omega
    have hslice := Bytes.slice_setList_self (b := name) (o := 0) (c.take dirsiz) (by omega)
    rw [hlen] at hslice
    refine ⟨name.setList 0 (c.take dirsiz), by rw [copyName, if_pos hlong,
      Bytes.storeList_of_le (by omega)], by rw [min_eq_right hlong]; exact hslice,
      fun h => absurd h (by omega), by rw [hslice]; exact takeWhile_ne_zero htake0⟩
  · -- `memmove(name, s, len); name[len] = 0`
    have hslice := Bytes.slice_setList_self (b := name) (o := 0) c (by omega)
    have hc : c.take dirsiz = c := List.take_of_length_le (by omega)
    have hnul : ((name.setList 0 c).set c.length 0).get c.length = 0 :=
      Bytes.get_set_self _ (by omega) 0
    have hfront : ((name.setList 0 c).set c.length 0).slice 0 c.length = c := by
      rw [Bytes.slice_set_of_lt_or_le (Or.inr (by omega)), hslice]
    refine ⟨(name.setList 0 c).set c.length 0, ?_, ?_, fun _ => hnul, ?_⟩
    · simp only [copyName, if_neg hlong, bind, Except.bind, Bytes.storeList_of_le (by omega : 0 + c.length ≤ dirsiz),
        Bytes.store_of_lt (by omega : c.length < dirsiz)]
    · rw [min_eq_left (by omega), hc, hfront]
    · -- the NUL ends the string `namecmp` reads
      have hsplit := Bytes.slice_add ((name.setList 0 c).set c.length 0) 0 c.length
        (dirsiz - c.length)
      rw [Nat.add_sub_cancel' (by omega : c.length ≤ dirsiz),
        show dirsiz - c.length = (dirsiz - c.length - 1) + 1 by omega] at hsplit
      rw [hsplit, hfront, Nat.zero_add, Bytes.slice_succ, hnul, hc,
        List.takeWhile_append_of_pos (fun x hx => bne_iff_ne.mpr fun (e : x = 0) => h0 (e ▸ hx)),
        List.takeWhile_cons, if_neg (by decide), List.append_nil]

/-- `skipelem` on the list of bytes is `skipelem` with the copy into `name`, as
`namecmp` reads it. -/
theorem skipelemName_some {path c' rest : List UInt8} (name : Bytes dirsiz) (h0 : 0 ∉ path)
    (h : skipelem path = some (c', rest)) :
    ∃ name', copyName name ((path.dropWhile (· == 47)).takeWhile (· != 47)) = .ok name' ∧
      skipelemName path name = .ok (some (name', rest)) := by
  unfold skipelem at h
  unfold skipelemName
  cases hd : path.dropWhile (· == 47) with
  | nil => rw [hd] at h; cases h
  | cons x p =>
    rw [hd] at h
    simp only [Option.some.injEq, Prod.mk.injEq] at h
    obtain ⟨rfl, rfl⟩ := h
    -- the element lies in the path, so it has no NUL either
    have hsub : (x :: p).takeWhile (· != 47) <:+: path :=
      (List.takeWhile_prefix _).isInfix.trans (hd ▸ List.dropWhile_suffix _).isInfix
    obtain ⟨name', hcopy, -⟩ := copyName_spec name (fun h => h0 (hsub.subset h))
    exact ⟨name', hcopy, by simp only [hcopy, bind, Except.bind, pure, Except.pure]⟩

theorem skipelemName_none {path : List UInt8} (name : Bytes dirsiz) (h : skipelem path = none) :
    skipelemName path name = .ok none := by
  unfold skipelem at h
  unfold skipelemName
  cases hd : path.dropWhile (· == 47) with
  | nil => rfl
  | cons x p => rw [hd] at h; cases h

/-- The name left in `name` compares as the element cut to `DIRSIZ`. -/
theorem namecmp_copy {name' : Bytes dirsiz} {c : List UInt8} (h0 : 0 ∉ c)
    (h : (name'.slice 0 dirsiz).takeWhile (· != 0) = c.take dirsiz) (t : List UInt8) :
    namecmp (name'.slice 0 dirsiz) t = namecmp (c.take dirsiz) t := by
  unfold namecmp
  rw [List.take_of_length_le (by simp), h, List.take_take, min_self,
    takeWhile_ne_zero (fun h' => h0 (List.mem_of_mem_take h'))]

/-! ## The walk over the elements -/

section Walk

variable (sb : Superblock)

/-- Looking up the elements `cs` in turn from `ip` (referenced, unlocked):
each directory reached is locked and checked, `nameiparent` stops before the
last element, and `name` is the last element taken. -/
def walkPath (parent : Bool) :
    Kfs → Iptr → List (List UInt8) → List UInt8 → Except String (Option (Iptr × List UInt8) × Kfs)
  | k, ip, [], name =>
    if parent then do
      let k ← k.iput sb ip
      pure (none, k)
    else pure (some (ip, name), k)
  | k, ip, c :: cs, _ => do
    let k ← k.ilock ip
    if (k.ino ip).type ≠ tDir then do
      let k ← k.iunlockput sb ip
      pure (none, k)
    else if parent ∧ cs = [] then do
      k.iunlock ip
      pure (some (ip, c.take dirsiz), k)
    else do
      let (r, k) ← dirlookup sb k ip (c.take dirsiz)
      match r with
      | none =>
        let k ← k.iunlockput sb ip
        pure (none, k)
      | some (next, _) =>
        let k ← k.iunlockput sb ip
        walkPath parent k next cs (c.take dirsiz)

/-- `namex`'s loop is the walk over the path's elements, given fuel for
every byte of the path. -/
theorem namexLoop_eq_walk (parent : Bool) (fuel : Nat) :
    ∀ {k : Kfs} {ip : Iptr} {path name : List UInt8}, path.length ≤ fuel →
      namexLoop sb parent k ip path name fuel = walkPath sb parent k ip (components path) name := by
  induction fuel with
  | zero =>
    intro k ip path name hlen
    have hnil : path = [] := List.eq_nil_of_length_eq_zero (by omega)
    subst hnil
    rw [namexLoop.eq_def, components_nil, walkPath]
    rfl
  | succ fuel ih =>
    intro k ip path name hlen
    rw [namexLoop.eq_def]
    cases hs : skipelem path with
    | none =>
      simp only [hs]
      rw [skipelem_none.mp hs, walkPath]
    | some elem =>
      obtain ⟨c', rest⟩ := elem
      obtain ⟨hc, rfl, -, -, hrest, -, hempty⟩ := skipelem_some hs
      generalize (path.dropWhile (· == 47)).takeWhile (· != 47) = c at hc hs
      simp only [hs]
      rw [hc, walkPath]
      -- the same pass, the rest of the path being empty exactly when no element is left
      have hwalk : ∀ k ip, namexLoop sb parent k ip rest (c.take dirsiz) fuel =
          walkPath sb parent k ip (components rest) (c.take dirsiz) := fun _ _ => ih (by omega)
      refine congrArg (k.ilock ip >>= ·) (funext fun k' => ?_)
      by_cases hdir : (k'.ino ip).type ≠ tDir
      · rw [if_pos hdir, if_pos hdir]
      rw [if_neg hdir, if_neg hdir]
      by_cases hlast : parent = true ∧ rest = []
      · rw [if_pos hlast, if_pos ⟨hlast.1, hempty.mp hlast.2⟩]
      rw [if_neg hlast, if_neg fun h => hlast ⟨h.1, hempty.mpr h.2⟩]
      refine congrArg (dirlookup sb k' ip (c.take dirsiz) >>= ·) (funext fun r => ?_)
      -- the two functions match the lookup's answer alike
      rcases r with ⟨_ | ⟨next, off⟩, k''⟩
      · rfl
      · exact congrArg (Kfs.iunlockput sb k'' ip >>= ·) (funext fun k₃ => hwalk k₃ next)

theorem path_resolution :
    (∀ path (name : Bytes dirsiz), (skipelem path = none ↔ components path = []) ∧
      (components path = [] → skipelemName path name = .ok none)) ∧
    (∀ path (name : Bytes dirsiz) c' rest, skipelem path = some (c', rest) →
      ∃ c, components path = c :: components rest ∧ c' = c.take dirsiz ∧
        rest.head? ≠ some 47 ∧ (rest = [] ↔ components rest = []) ∧
        (0 ∉ path → ∃ name', skipelemName path name = .ok (some (name', rest)) ∧
          name'.slice 0 (min c.length dirsiz) = c.take dirsiz ∧
          (c.length < dirsiz → name'.get c.length = 0) ∧
          ∀ t, namecmp (name'.slice 0 dirsiz) t = namecmp c' t)) ∧
    (∀ k cwd path parent, namex sb k cwd path parent =
      (do
        let (ip, k) ← if path.head? = some 47 then k.iget rootino else pure (cwd, k.idup cwd)
        walkPath sb parent k ip (components path) [])) := by
  refine ⟨fun path name => ⟨skipelem_none, fun hc => skipelemName_none name (skipelem_none.mpr hc)⟩,
    fun path name c' rest hs => ?_, fun k cwd path parent => ?_⟩
  · obtain ⟨hc, rfl, hsub, -, -, hhead, hempty⟩ := skipelem_some hs
    refine ⟨_, hc, rfl, hhead, hempty, fun h0 => ?_⟩
    -- the copy the buffer version of `skipelem` makes
    obtain ⟨name', hcopy, hname⟩ := skipelemName_some name h0 hs
    have hc0 : 0 ∉ (path.dropWhile (· == 47)).takeWhile (· != 47) := fun h => h0 (hsub.subset h)
    obtain ⟨name'', hcopy', hfront, hnul, hstr⟩ := copyName_spec name hc0
    rw [hcopy', Except.ok.injEq] at hcopy
    subst hcopy
    exact ⟨name'', hname, hfront, hnul, namecmp_copy hc0 hstr⟩
  · -- the loop from the root or the current directory is the walk over the elements
    have hloop : ∀ k ip, namexLoop sb parent k ip path [] path.length =
        walkPath sb parent k ip (components path) [] := fun _ _ => namexLoop_eq_walk sb parent _ le_rfl
    unfold namex
    simp only [hloop]

end Walk

end Xv6.Kernel
