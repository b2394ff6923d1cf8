import Xv6.Kernel.Vm.Map

/-!
# Copying between the kernel and user space

`copyout`, `copyin` and `copyinstr` of `vm.c`. The kernel buffer lies apart
from the user pages: `copyout` reads `src` by index, and `copyin` and
`copyinstr` return the bytes they store to `dst`, in order.

The user side is read through the page table. `Kmem.userPte` is the entry of
the page holding virtual address `x` when that page is below `MAXVA` and
mapped with `PTE_V` and `PTE_U` (and `PTE_W` for a write); `Kmem.userByte` is
the byte there.

* `walkaddr_pgrounddown` — `walkaddr` of a page is the page `userPte` finds,
  `0` when there is none;
* `copyinLoop_spec`, `copyinstrLoop_spec` — over user pages that map nonzero
  physical pages, `copyin` and `copyinstr` succeed exactly when the bytes are
  there, and return them;
* `copyoutLoop_spec` — over writable user pages that map distinct pages and no
  page of the table, `copyout` succeeds exactly when the bytes are there,
  stores `src` at them, and changes no other byte.
-/

namespace Xv6.Kernel

open Xv6.Lib

/-- The loop of `copyout(pagetable, dstva, src, len)`, a page a pass. A pass
that goes on copies at least one byte, so `len + 1` passes finish it. -/
def copyoutLoop (pt : Nat) : Nat → Kmem → UInt64 → (Nat → UInt8) → UInt64 →
    Except String (Int × Kmem)
  | 0, _, _, _, _ => .error "copyout: out of fuel"
  | fuel + 1, k, dstva, src, len =>
    if len > 0 then do
      let va0 := pgrounddown dstva
      if va0 ≥ maxva then return (-1, k)
      let (pte, _) ← walk k pt va0 false
      if pte = 0 ∨ k.mem.load64 pte &&& pteV = 0 ∨ k.mem.load64 pte &&& pteU = 0 ∨
          k.mem.load64 pte &&& pteW = 0 then return (-1, k)
      let pa0 := pte2pa (k.mem.load64 pte)
      let n := pgsize - (dstva - va0)
      let n := if n > len then len else n
      -- `memmove((void *)(pa0 + (dstva - va0)), src, n)`
      let k : Kmem := ⟨k.mem.write (pa0 + (dstva - va0)).toNat n.toNat src, k.freelist⟩
      copyoutLoop pt fuel k (va0 + pgsize) (fun i => src (n.toNat + i)) (len - n)
    else return (0, k)

/-- `copyout(pagetable, dstva, src, len)`: `0`, or `-1` at a page it may not write. -/
def copyout (k : Kmem) (pt : Nat) (dstva : UInt64) (src : Nat → UInt8) (len : UInt64) :
    Except String (Int × Kmem) :=
  copyoutLoop pt (len.toNat + 1) k dstva src len

/-- The loop of `copyin(pagetable, dst, srcva, len)`; `dst` holds the bytes
stored so far. -/
def copyinLoop (k : Kmem) (pt : Nat) : Nat → List UInt8 → UInt64 → UInt64 →
    Except String (Int × List UInt8)
  | 0, _, _, _ => .error "copyin: out of fuel"
  | fuel + 1, dst, srcva, len =>
    if len > 0 then do
      let va0 := pgrounddown srcva
      let pa0 ← walkaddr k pt va0
      if pa0 = 0 then return (-1, dst)
      let n := pgsize - (srcva - va0)
      let n := if n > len then len else n
      -- `memmove(dst, (void *)(pa0 + (srcva - va0)), n)`
      let dst := dst ++ (List.range n.toNat).map fun i => k.mem ((pa0 + (srcva - va0)).toNat + i)
      copyinLoop k pt fuel dst (va0 + pgsize) (len - n)
    else return (0, dst)

/-- `copyin(pagetable, dst, srcva, len)`: `0` or `-1`, and the bytes stored to `dst`. -/
def copyin (k : Kmem) (pt : Nat) (srcva len : UInt64) : Except String (Int × List UInt8) :=
  copyinLoop k pt (len.toNat + 1) [] srcva len

/-- The inner loop of `copyinstr`: at most `n` bytes from physical address `p`,
up to and including a `'\0'`. Gives `got_null`, `max` and the bytes stored. -/
def copyinstrInner (m : Mem) : Nat → Nat → UInt64 → List UInt8 → Bool × UInt64 × List UInt8
  | 0, _, max, dst => (false, max, dst)
  | n + 1, p, max, dst =>
    if m p = 0 then (true, max, dst ++ [0])
    else copyinstrInner m n (p + 1) (max - 1) (dst ++ [m p])

/-- The outer loop of `copyinstr(pagetable, dst, srcva, max)`. -/
def copyinstrLoop (k : Kmem) (pt : Nat) : Nat → List UInt8 → UInt64 → UInt64 →
    Except String (Int × List UInt8)
  | 0, _, _, _ => .error "copyinstr: out of fuel"
  | fuel + 1, dst, srcva, max =>
    -- `while (got_null == 0 && max > 0)`: a pass that finds the `'\0'` ends it
    if max > 0 then do
      let va0 := pgrounddown srcva
      let pa0 ← walkaddr k pt va0
      if pa0 = 0 then return (-1, dst)
      let n := pgsize - (srcva - va0)
      let n := if n > max then max else n
      let (gotNull, max, dst) := copyinstrInner k.mem n.toNat (pa0 + (srcva - va0)).toNat max dst
      if gotNull then return (0, dst)
      copyinstrLoop k pt fuel dst (va0 + pgsize) max
    else return (-1, dst)

/-- `copyinstr(pagetable, dst, srcva, max)`: `0` or `-1`, and the bytes stored to `dst`. -/
def copyinstr (k : Kmem) (pt : Nat) (srcva max : UInt64) : Except String (Int × List UInt8) :=
  copyinstrLoop k pt (max.toNat + 1) [] srcva max

/-- The entry of the page holding virtual address `x`, when that page is below
`MAXVA` and mapped with `PTE_V` and `PTE_U`, and with `PTE_W` too for a write. -/
def Kmem.userPte (k : Kmem) (pt : Nat) (write : Bool) (x : Nat) : Option UInt64 :=
  if x < maxva.toNat then
    match k.lookup pt (UInt64.ofNat (x / 4096 * 4096)) with
    | some e => if e &&& pteU ≠ 0 ∧ (write → e &&& pteW ≠ 0) then some e else none
    | none => none
  else none

/-- The byte at virtual address `x` through such a page. -/
def Kmem.userByte (k : Kmem) (pt : Nat) (write : Bool) (x : Nat) : Option UInt8 :=
  (k.userPte pt write x).map fun e => k.mem ((pte2pa e).toNat + x % 4096)

/-! ## Pages and offsets -/

section Page

variable {k : Kmem} {pt : Nat}

/-- `userPte` reads the page of `x` alone. -/
theorem userPte_congr {write : Bool} {x y : Nat} (h : x / 4096 = y / 4096) :
    k.userPte pt write x = k.userPte pt write y := by
  unfold Kmem.userPte
  rw [h]
  by_cases hx : x < maxva.toNat
  · have hy : y < maxva.toNat := by
      rw [maxva_toNat] at *
      omega
    rw [if_pos hx, if_pos hy]
  · have hy : ¬y < maxva.toNat := by
      rw [maxva_toNat] at *
      omega
    rw [if_neg hx, if_neg hy]

theorem lt_maxva_of_userPte {write : Bool} {x : Nat} {e : UInt64}
    (h : k.userPte pt write x = some e) : x < 2 ^ 38 := by
  unfold Kmem.userPte at h
  split_ifs at h with hx
  rwa [maxva_toNat] at hx

theorem pgrounddown_eq_ofNat (v : UInt64) : pgrounddown v = UInt64.ofNat (v.toNat / 4096 * 4096) := by
  apply UInt64.toNat_inj.mp
  rw [pgrounddown_toNat, UInt64.toNat_ofNat', Nat.mod_eq_of_lt (by have := v.toNat_lt; omega)]

/-- The offset of `v` in its page. -/
theorem sub_pgrounddown_toNat (v : UInt64) : (v - pgrounddown v).toNat = v.toNat % 4096 := by
  rw [UInt64.toNat_sub_of_le _ _ (UInt64.le_iff_toNat_le.mpr (by rw [pgrounddown_toNat]; omega)),
    pgrounddown_toNat]
  omega

/-- A page-aligned physical address plus an offset in the page. -/
theorem add_offset_toNat (e v : UInt64) :
    (pte2pa e + (v - pgrounddown v)).toNat = (pte2pa e).toNat + v.toNat % 4096 := by
  have hal := pte2pa_aligned e
  have hlt := (pte2pa e).toNat_lt
  rw [UInt64.toNat_add, sub_pgrounddown_toNat]
  omega

/-- The bytes a pass copies: the rest of the page, or `len` if that is fewer. -/
theorem pageChunk_toNat (v len : UInt64) :
    (if pgsize - (v - pgrounddown v) > len then len else pgsize - (v - pgrounddown v)).toNat =
      min (4096 - v.toNat % 4096) len.toNat := by
  have hn : (pgsize - (v - pgrounddown v)).toNat = 4096 - v.toNat % 4096 := by
    rw [UInt64.toNat_sub_of_le _ _ (UInt64.le_iff_toNat_le.mpr (by
      rw [sub_pgrounddown_toNat, pgsize_toNat]; omega)), sub_pgrounddown_toNat, pgsize_toNat]
  split_ifs with h
  · have := UInt64.lt_iff_toNat_lt.mp h
    omega
  · have := UInt64.not_lt.mp h
    have := UInt64.le_iff_toNat_le.mp this
    omega

/-- The next page, when this one is below `MAXVA`. -/
theorem next_page_toNat {v : UInt64} (hv : v.toNat < 2 ^ 38) :
    (pgrounddown v + pgsize).toNat = v.toNat - v.toNat % 4096 + 4096 := by
  rw [UInt64.toNat_add, pgrounddown_toNat, pgsize_toNat]
  omega

/-- `walkaddr` is the physical page of a user mapping, `0` otherwise. -/
theorem walkaddr_eq (k : Kmem) (pt : Nat) (v : UInt64) :
    walkaddr k pt v = .ok (match k.lookup pt v with
      | some e => if e &&& pteU = 0 then 0 else pte2pa e
      | none => 0) := by
  unfold walkaddr Kmem.lookup
  by_cases hv : v ≥ maxva
  · rw [if_pos hv, walk, if_pos hv]
  · rw [if_neg hv, walk, if_neg hv]
    generalize walkLoop v false 2 k pt = res
    obtain ⟨pte, k'⟩ := res
    simp only [bind, Except.bind, pure, Except.pure]
    by_cases h0 : pte = 0
    · simp [h0]
    · by_cases hval : PteValid (k.mem.load64 pte)
      · simp only [h0, hval, if_false, not_true_eq_false, ne_eq, not_false_eq_true, and_self,
          if_true]
        split_ifs <;> rfl
      · simp [h0, hval]

theorem walkaddr_pgrounddown (k : Kmem) (pt : Nat) (v : UInt64) :
    walkaddr k pt (pgrounddown v) = .ok (match k.userPte pt false v.toNat with
      | some e => pte2pa e
      | none => 0) := by
  rw [walkaddr_eq, Kmem.userPte, pgrounddown_eq_ofNat]
  by_cases hv : v.toNat < maxva.toNat
  · rw [if_pos hv]
    cases k.lookup pt (UInt64.ofNat (v.toNat / 4096 * 4096)) with
    | none => rfl
    | some e =>
      by_cases hu : e &&& pteU = 0
      · simp [hu]
      · simp [hu]
  · rw [if_neg hv]
    cases hl : k.lookup pt (UInt64.ofNat (v.toNat / 4096 * 4096)) with
    | none => rfl
    | some e =>
      -- a page at or above `MAXVA` is never mapped
      have := UInt64.lt_iff_toNat_lt.mp (lt_maxva_of_lookup hl)
      rw [UInt64.toNat_ofNat', Nat.mod_eq_of_lt (by have := v.toNat_lt; omega)] at this
      rw [maxva_toNat] at hv this
      omega

/-- The bytes of the page of `v` from `v` on are the user bytes there. -/
theorem userByte_of_page {write : Bool} {v e : UInt64} (he : k.userPte pt write v.toNat = some e)
    {i : Nat} (hi : v.toNat % 4096 + i < 4096) :
    k.userByte pt write (v.toNat + i) = some (k.mem ((pte2pa e).toNat + v.toNat % 4096 + i)) := by
  have hpage : (v.toNat + i) / 4096 = v.toNat / 4096 := by omega
  rw [Kmem.userByte, userPte_congr hpage, he, Option.map_some]
  congr 2
  omega

/-- The pages from `v` on: a prefix `[v, v + n)` in the page of `v`, and the
rest from `v + n` on. A property of each address holds on `[v, v + len)` when
it holds on the prefix and on the rest. -/
theorem forall_lt_split {P : Nat → Prop} {len n : Nat} (hn : n ≤ len) :
    (∀ i < len, P i) ↔ (∀ i < n, P i) ∧ ∀ i < len - n, P (n + i) := by
  constructor
  · intro h
    exact ⟨fun i hi => h i (by omega), fun i hi => h (n + i) (by omega)⟩
  · rintro ⟨h₁, h₂⟩ i hi
    by_cases hin : i < n
    · exact h₁ i hin
    · have := h₂ (i - n) (by omega)
      rwa [show n + (i - n) = i by omega] at this

end Page

/-! ## `copyin` -/

section Copyin

variable {k : Kmem} {pt : Nat}

/-- One pass of `copyin` over a user page: the bytes of the page from `srcva`
on, and the loop from the next page. -/
theorem copyinLoop_step {fuel : Nat} {dst : List UInt8} {srcva len e : UInt64} (hlen : len > 0)
    (he : k.userPte pt false srcva.toNat = some e) (hpa : pte2pa e ≠ 0) :
    copyinLoop k pt (fuel + 1) dst srcva len =
      copyinLoop k pt fuel
        (dst ++ (List.range (min (4096 - srcva.toNat % 4096) len.toNat)).map fun i =>
          k.mem ((pte2pa e).toNat + srcva.toNat % 4096 + i))
        (pgrounddown srcva + pgsize)
        (len - if pgsize - (srcva - pgrounddown srcva) > len then len
          else pgsize - (srcva - pgrounddown srcva)) := by
  rw [copyinLoop, if_pos hlen]
  simp only [walkaddr_pgrounddown, he, bind, Except.bind, hpa, if_false]
  rw [pageChunk_toNat, add_offset_toNat]

theorem copyinLoop_spec (hz : ∀ x e, k.userPte pt false x = some e → pte2pa e ≠ 0) :
    ∀ fuel dst (srcva len : UInt64), len.toNat < fuel →
      ∃ r out, copyinLoop k pt fuel dst srcva len = .ok (r, out) ∧
        ((∀ i < len.toNat, (k.userPte pt false (srcva.toNat + i)).isSome) →
          r = 0 ∧ out = dst ++ (List.range len.toNat).map fun i =>
            (k.userByte pt false (srcva.toNat + i)).getD 0) ∧
        (¬(∀ i < len.toNat, (k.userPte pt false (srcva.toNat + i)).isSome) → r = -1)
  | 0, _, _, _, hfuel => absurd hfuel (Nat.not_lt_zero _)
  | fuel + 1, dst, srcva, len, hfuel => by
    by_cases hlen : len > 0
    swap
    · -- nothing left to copy
      have h0 : len.toNat = 0 := by
        have := UInt64.le_iff_toNat_le.mp (UInt64.not_lt.mp hlen)
        rw [UInt64.toNat_zero] at this
        omega
      refine ⟨0, dst, by rw [copyinLoop, if_neg hlen]; rfl, fun _ => ⟨rfl, by simp [h0]⟩,
        fun h => absurd (fun i hi => absurd hi (by omega)) h⟩
    have hL := UInt64.lt_iff_toNat_lt.mp hlen
    rw [UInt64.toNat_zero] at hL
    cases hpte : k.userPte pt false srcva.toNat with
    | none =>
      -- the first page is not a user page
      refine ⟨-1, dst, ?_, fun h => ?_, fun _ => rfl⟩
      · rw [copyinLoop, if_pos hlen]
        simp only [walkaddr_pgrounddown, hpte, bind, Except.bind, if_true]
        rfl
      · have h₀ := h 0 hL
        rw [Nat.add_zero, hpte] at h₀
        cases h₀
    | some e =>
      have hs := lt_maxva_of_userPte hpte
      set n := min (4096 - srcva.toNat % 4096) len.toNat with hn
      have hnext := next_page_toNat hs
      have hlen' : (len - if pgsize - (srcva - pgrounddown srcva) > len then len
          else pgsize - (srcva - pgrounddown srcva)).toNat = len.toNat - n := by
        rw [UInt64.toNat_sub_of_le _ _ (UInt64.le_iff_toNat_le.mpr (by rw [pageChunk_toNat]; omega)),
          pageChunk_toNat]
      obtain ⟨r, out, hrun, hall, hnot⟩ := copyinLoop_spec hz fuel
        (dst ++ (List.range n).map fun i => k.mem ((pte2pa e).toNat + srcva.toNat % 4096 + i))
        (pgrounddown srcva + pgsize) (len - if pgsize - (srcva - pgrounddown srcva) > len then len
          else pgsize - (srcva - pgrounddown srcva)) (by rw [hlen']; omega)
      rw [hlen', hnext] at hall hnot
      -- the rest starts at `srcva + n`, or there is no rest
      have hrest : ∀ i, i < len.toNat - n → srcva.toNat - srcva.toNat % 4096 + 4096 + i =
          srcva.toNat + (n + i) := fun i hi => by omega
      have hbytes : (List.range n).map (fun i => k.mem ((pte2pa e).toNat + srcva.toNat % 4096 + i)) =
          (List.range n).map fun i => (k.userByte pt false (srcva.toNat + i)).getD 0 :=
        List.map_congr_left fun i hi => by
          rw [userByte_of_page hpte (by have := List.mem_range.mp hi; omega)]
          rfl
      have hpage : ∀ i < n, (k.userPte pt false (srcva.toNat + i)).isSome := fun i hi => by
        rw [userPte_congr (show (srcva.toNat + i) / 4096 = srcva.toNat / 4096 by omega), hpte]
        rfl
      refine ⟨r, out, by rw [copyinLoop_step hlen hpte (hz _ e hpte)]; exact hrun, fun h => ?_,
        fun h => hnot fun hall' => h ?_⟩
      · obtain ⟨-, h₂⟩ := (forall_lt_split (show n ≤ len.toNat by omega)).mp h
        obtain ⟨hr, hout⟩ := hall fun i hi => by rw [hrest i hi]; exact h₂ i hi
        refine ⟨hr, ?_⟩
        rw [hout, hbytes, List.append_assoc]
        refine congrArg (dst ++ ·) ?_
        conv_rhs => rw [show len.toNat = n + (len.toNat - n) by omega, List.range_add,
          List.map_append, List.map_map]
        refine congrArg (_ ++ ·) ?_
        refine List.map_congr_left fun i hi => ?_
        simp only [Function.comp_apply]
        rw [hrest i (List.mem_range.mp hi)]
      · exact (forall_lt_split (show n ≤ len.toNat by omega)).mpr
          ⟨hpage, fun i hi => by rw [← hrest i hi]; exact hall' i hi⟩

end Copyin

/-! ## `copyinstr` -/

/-- A string at virtual address `s` within `max` bytes: its `'\0'` is byte
`j < max`, every byte up to it lies in a user page, and no earlier byte is
`'\0'`. -/
def Kmem.UserStr (k : Kmem) (pt s max j : Nat) : Prop :=
  j < max ∧ (∀ i ≤ j, (k.userPte pt false (s + i)).isSome) ∧
    k.userByte pt false (s + j) = some 0 ∧ ∀ i < j, k.userByte pt false (s + i) ≠ some 0

section Copyinstr

variable {k : Kmem} {pt : Nat}

/-- The inner loop stops at the first `'\0'` of its `n` bytes and stores it,
or stores all `n` bytes and counts them off `max`. -/
theorem copyinstrInner_spec (m : Mem) :
    ∀ n p (max : UInt64) dst, n ≤ max.toNat →
      (∃ j < n, (∀ i < j, m (p + i) ≠ 0) ∧ m (p + j) = 0 ∧
        (copyinstrInner m n p max dst).1 = true ∧
        (copyinstrInner m n p max dst).2.2 = dst ++ (List.range (j + 1)).map fun i => m (p + i)) ∨
      ((∀ i < n, m (p + i) ≠ 0) ∧ (copyinstrInner m n p max dst).1 = false ∧
        (copyinstrInner m n p max dst).2.1.toNat = max.toNat - n ∧
        (copyinstrInner m n p max dst).2.2 = dst ++ (List.range n).map fun i => m (p + i))
  | 0, _, _, _, _ => .inr ⟨fun _ h => absurd h (Nat.not_lt_zero _), rfl, rfl, by simp [copyinstrInner]⟩
  | n + 1, p, max, dst, hn => by
    -- the bytes from the second on, shifted back by one
    have hshift : ∀ j, (List.range (j + 1)).map (fun i => m (p + i)) =
        m p :: (List.range j).map fun i => m (p + 1 + i) := fun j => by
      rw [List.range_succ_eq_map, List.map_cons, List.map_map]
      congr 1
      exact List.map_congr_left fun i _ => by simp only [Function.comp_apply]; congr 1; omega
    by_cases h0 : m p = 0
    · -- the first byte is the `'\0'`
      refine .inl ⟨0, by omega, fun _ h => absurd h (Nat.not_lt_zero _), h0, ?_, ?_⟩ <;>
        simp [copyinstrInner, h0]
    have hmax : (max - 1).toNat = max.toNat - 1 := by
      rw [UInt64.toNat_sub_of_le _ _ (UInt64.le_iff_toNat_le.mpr (by simp; omega))]
      rfl
    have hstep : copyinstrInner m (n + 1) p max dst =
        copyinstrInner m n (p + 1) (max - 1) (dst ++ [m p]) := by
      rw [copyinstrInner, if_neg h0]
    rw [hstep]
    rcases copyinstrInner_spec m n (p + 1) (max - 1) (dst ++ [m p]) (by omega) with
      ⟨j, hj, hne, hz, h₁, h₂⟩ | ⟨hne, h₁, h₂, h₃⟩
    · refine .inl ⟨j + 1, by omega, fun i hi => ?_, by rw [← hz]; congr 1; omega, h₁, ?_⟩
      · rcases i with _ | i
        · exact h0
        · have := hne i (by omega)
          rwa [show p + 1 + i = p + (i + 1) by omega] at this
      · rw [h₂, hshift, List.append_assoc, List.singleton_append]
    · refine .inr ⟨fun i hi => ?_, h₁, by rw [h₂, hmax]; omega, ?_⟩
      · rcases i with _ | i
        · exact h0
        · have := hne i (by omega)
          rwa [show p + 1 + i = p + (i + 1) by omega] at this
      · rw [h₃, hshift, List.append_assoc, List.singleton_append]

/-- Bytes before the `'\0'` that lie in user pages and are not `'\0'` move the
string on. -/
theorem userStr_shift {s max n : Nat} (hn : n ≤ max)
    (hpre : ∀ i < n, ∃ b, k.userByte pt false (s + i) = some b ∧ b ≠ 0) {j : Nat} :
    k.UserStr pt s max j ↔ n ≤ j ∧ k.UserStr pt (s + n) (max - n) (j - n) := by
  constructor
  · rintro ⟨hj, hmap, hz, hne⟩
    have hnj : n ≤ j := by
      by_contra hlt
      obtain ⟨b, hb, hb0⟩ := hpre j (by omega)
      rw [hz] at hb
      cases hb
      exact hb0 rfl
    refine ⟨hnj, by omega, fun i hi => ?_, ?_, fun i hi => ?_⟩
    · rw [Nat.add_assoc]
      exact hmap (n + i) (by omega)
    · rw [Nat.add_assoc, show n + (j - n) = j by omega]
      exact hz
    · rw [Nat.add_assoc]
      exact hne (n + i) (by omega)
  · rintro ⟨hnj, hj, hmap, hz, hne⟩
    refine ⟨by omega, fun i hi => ?_, ?_, fun i hi => ?_⟩
    · by_cases hin : i < n
      · obtain ⟨b, hb, -⟩ := hpre i hin
        rw [Kmem.userByte, Option.map_eq_some_iff] at hb
        obtain ⟨e, he, -⟩ := hb
        rw [he]
        rfl
      · have := hmap (i - n) (by omega)
        rwa [Nat.add_assoc, show n + (i - n) = i by omega] at this
    · rw [Nat.add_assoc, show n + (j - n) = j by omega] at hz
      exact hz
    · by_cases hin : i < n
      · obtain ⟨b, hb, hb0⟩ := hpre i hin
        rw [hb]
        exact fun h => hb0 (Option.some.inj h)
      · have := hne (i - n) (by omega)
        rwa [Nat.add_assoc, show n + (i - n) = i by omega] at this

/-- The `'\0'` of a string is its first. -/
theorem UserStr.unique {s max j j' : Nat} (h : k.UserStr pt s max j) (h' : k.UserStr pt s max j') :
    j = j' := by
  rcases Nat.lt_trichotomy j j' with hlt | heq | hgt
  · exact absurd h.2.2.1 (h'.2.2.2 j hlt)
  · exact heq
  · exact absurd h'.2.2.1 (h.2.2.2 j' hgt)

theorem not_userStr_zero {s j : Nat} : ¬k.UserStr pt s 0 j := fun h => Nat.not_lt_zero _ h.1

/-- One pass of `copyinstr` over a user page: the inner loop over the page from
`srcva` on, then the end or the loop from the next page. -/
theorem copyinstrLoop_step {fuel : Nat} {dst : List UInt8} {srcva max e : UInt64} (hmax : max > 0)
    (he : k.userPte pt false srcva.toNat = some e) (hpa : pte2pa e ≠ 0) :
    copyinstrLoop k pt (fuel + 1) dst srcva max =
      let res := copyinstrInner k.mem (min (4096 - srcva.toNat % 4096) max.toNat)
        ((pte2pa e).toNat + srcva.toNat % 4096) max dst
      if res.1 then .ok (0, res.2.2)
      else copyinstrLoop k pt fuel res.2.2 (pgrounddown srcva + pgsize) res.2.1 := by
  rw [copyinstrLoop, if_pos hmax]
  simp only [walkaddr_pgrounddown, he, bind, Except.bind, hpa, if_false]
  rw [pageChunk_toNat, add_offset_toNat]
  rfl

theorem copyinstrLoop_spec (hz : ∀ x e, k.userPte pt false x = some e → pte2pa e ≠ 0) :
    ∀ fuel dst (srcva max : UInt64), max.toNat < fuel →
      ∃ r new, copyinstrLoop k pt fuel dst srcva max = .ok (r, dst ++ new) ∧
        new.length ≤ max.toNat ∧ (r = 0 ∨ r = -1) ∧
        (r = 0 ↔ ∃ j, k.UserStr pt srcva.toNat max.toNat j) ∧
        ∀ j, k.UserStr pt srcva.toNat max.toNat j →
          new = (List.range (j + 1)).map fun i => (k.userByte pt false (srcva.toNat + i)).getD 0
  | 0, _, _, _, hfuel => absurd hfuel (Nat.not_lt_zero _)
  | fuel + 1, dst, srcva, max, hfuel => by
    by_cases hmax : max > 0
    swap
    · -- `max` is used up
      have h0 : max.toNat = 0 := by
        have := UInt64.le_iff_toNat_le.mp (UInt64.not_lt.mp hmax)
        rw [UInt64.toNat_zero] at this
        omega
      rw [h0]
      refine ⟨-1, [], by rw [copyinstrLoop, if_neg hmax, List.append_nil]; rfl, le_rfl, .inr rfl,
        ⟨fun h => absurd h (by decide), fun ⟨j, hj⟩ => absurd hj not_userStr_zero⟩,
        fun j hj => absurd hj not_userStr_zero⟩
    cases hpte : k.userPte pt false srcva.toNat with
    | none =>
      -- the first page is not a user page
      have hno : ¬∃ j, k.UserStr pt srcva.toNat max.toNat j := fun ⟨j, hj⟩ => by
        have := hj.2.1 0 (Nat.zero_le _)
        rw [Nat.add_zero, hpte] at this
        cases this
      refine ⟨-1, [], ?_, Nat.zero_le _, .inr rfl, ⟨fun h => absurd h (by decide), fun h => absurd h hno⟩,
        fun j hj => absurd ⟨j, hj⟩ hno⟩
      rw [copyinstrLoop, if_pos hmax, List.append_nil]
      simp only [walkaddr_pgrounddown, hpte, bind, Except.bind, if_true]
      rfl
    | some e =>
      have hs := lt_maxva_of_userPte hpte
      have hM := UInt64.lt_iff_toNat_lt.mp hmax
      rw [UInt64.toNat_zero] at hM
      set n := min (4096 - srcva.toNat % 4096) max.toNat with hn
      set p := (pte2pa e).toNat + srcva.toNat % 4096
      have hbyte : ∀ i < n, k.userByte pt false (srcva.toNat + i) = some (k.mem (p + i)) :=
        fun i hi => userByte_of_page hpte (by omega)
      have hstep : copyinstrLoop k pt (fuel + 1) dst srcva max = _ :=
        copyinstrLoop_step hmax hpte (hz _ e hpte)
      rcases copyinstrInner_spec k.mem n p max dst (by omega) with
        ⟨j, hj, hne, hz0, h₁, h₂⟩ | ⟨hne, h₁, h₂, h₃⟩
      · -- the `'\0'` is in this page
        have hstr : k.UserStr pt srcva.toNat max.toNat j := by
          refine ⟨by omega, fun i hi => ?_, by rw [hbyte j hj, hz0], fun i hi => ?_⟩
          · rw [userPte_congr (show (srcva.toNat + i) / 4096 = srcva.toNat / 4096 by omega), hpte]
            rfl
          · rw [hbyte i (by omega)]
            exact fun h => hne i hi (Option.some.inj h)
        refine ⟨0, (List.range (j + 1)).map fun i => k.mem (p + i), ?_, by simp; omega, .inl rfl,
          ⟨fun _ => ⟨j, hstr⟩, fun _ => rfl⟩, fun j' hj' => ?_⟩
        · rw [hstep]
          dsimp only
          rw [if_pos h₁, h₂]
        · rw [← UserStr.unique hstr hj']
          exact List.map_congr_left fun i hi => by
            rw [hbyte i (by have := List.mem_range.mp hi; omega)]
            rfl
      · -- no `'\0'` in this page: the rest of the string from the next page
        set res := copyinstrInner k.mem n p max dst
        obtain ⟨r, new, hrun, hlen, hr, hiff, hnew⟩ := copyinstrLoop_spec hz fuel res.2.2
          (pgrounddown srcva + pgsize) res.2.1 (by rw [h₂]; omega)
        rw [h₂] at hlen
        rw [h₂, next_page_toNat hs] at hiff hnew
        have hpre : ∀ i < n, ∃ b, k.userByte pt false (srcva.toNat + i) = some b ∧ b ≠ 0 :=
          fun i hi => ⟨_, hbyte i hi, hne i hi⟩
        -- a string from `srcva` is the rest of the string from the next page
        have hshift : ∀ j, k.UserStr pt srcva.toNat max.toNat j ↔
            n ≤ j ∧ k.UserStr pt (srcva.toNat - srcva.toNat % 4096 + 4096) (max.toNat - n) (j - n) := by
          intro j
          by_cases hend : max.toNat - n = 0
          · rw [hend]
            exact ⟨fun h => absurd ((userStr_shift (by omega) hpre).mp h).2
              (by rw [hend]; exact not_userStr_zero), fun h => absurd h.2 not_userStr_zero⟩
          · rw [show srcva.toNat - srcva.toNat % 4096 + 4096 = srcva.toNat + n by omega]
            exact userStr_shift (by omega) hpre
        refine ⟨r, (List.range n).map (fun i => k.mem (p + i)) ++ new, ?_, ?_, hr, ?_,
          fun j hj => ?_⟩
        · rw [hstep]
          dsimp only
          rw [if_neg (by rw [h₁]; exact Bool.false_ne_true), hrun, h₃, List.append_assoc]
        · simp only [List.length_append, List.length_map, List.length_range]
          omega
        · rw [hiff]
          exact ⟨fun ⟨j', hj'⟩ => ⟨n + j', (hshift _).mpr ⟨by omega, by rwa [Nat.add_sub_cancel_left]⟩⟩,
            fun ⟨j, hj⟩ => ⟨j - n, ((hshift j).mp hj).2⟩⟩
        · obtain ⟨hnj, hj'⟩ := (hshift j).mp hj
          have hpos : 0 < max.toNat - n := by
            have := hj'.1
            omega
          rw [hnew _ hj']
          conv_rhs => rw [show j + 1 = n + (j - n + 1) by omega, List.range_add, List.map_append,
            List.map_map]
          refine congrArg₂ (· ++ ·) ?_ ?_
          · exact List.map_congr_left fun i hi => by
              rw [hbyte i (List.mem_range.mp hi)]
              rfl
          · refine List.map_congr_left fun i hi => ?_
            simp only [Function.comp_apply]
            rw [show srcva.toNat - srcva.toNat % 4096 + 4096 + i = srcva.toNat + (n + i) by omega]

end Copyinstr

/-! ## `copyout` -/

section Copyout

variable {k : Kmem} {pt : Nat}

/-- One pass of `copyout`: nothing more at a page it may not write; else the
bytes of the page from `dstva` on, and the loop from the next page. -/
theorem copyoutLoop_step {fuel : Nat} {dstva len : UInt64} {src : Nat → UInt8} (hlen : len > 0) :
    copyoutLoop pt (fuel + 1) k dstva src len =
      match k.userPte pt true dstva.toNat with
      | none => .ok (-1, k)
      | some e => copyoutLoop pt fuel
          ⟨k.mem.write ((pte2pa e).toNat + dstva.toNat % 4096)
            (min (4096 - dstva.toNat % 4096) len.toNat) src, k.freelist⟩
          (pgrounddown dstva + pgsize) (fun i => src (min (4096 - dstva.toNat % 4096) len.toNat + i))
          (len - if pgsize - (dstva - pgrounddown dstva) > len then len
            else pgsize - (dstva - pgrounddown dstva)) := by
  rw [copyoutLoop, if_pos hlen, Kmem.userPte, Kmem.lookup, ← pgrounddown_eq_ofNat]
  by_cases hv : pgrounddown dstva ≥ maxva
  · have hd : ¬dstva.toNat < maxva.toNat := by
      have := UInt64.le_iff_toNat_le.mp hv
      rw [pgrounddown_toNat, maxva_toNat] at this
      rw [maxva_toNat]
      omega
    simp only [hv, if_true, hd, if_false]
    rfl
  · have hd : dstva.toNat < maxva.toNat := by
      have := UInt64.lt_iff_toNat_lt.mp (UInt64.not_le.mp hv)
      rw [pgrounddown_toNat, maxva_toNat] at this
      rw [maxva_toNat]
      omega
    have hw : walk k pt (pgrounddown dstva) false = .ok (walkLoop (pgrounddown dstva) false 2 k pt) := by
      rw [walk, if_neg hv]
    rw [if_pos hd]
    simp only [hv, if_false, bind, Except.bind, pure, Except.pure]
    rw [hw]
    generalize walkLoop (pgrounddown dstva) false 2 k pt = res
    obtain ⟨pte, k'⟩ := res
    dsimp only
    by_cases hc : pte = 0 ∨ k.mem.load64 pte &&& pteV = 0 ∨ k.mem.load64 pte &&& pteU = 0 ∨
        k.mem.load64 pte &&& pteW = 0
    · -- a page `copyout` may not write
      rw [if_pos hc]
      rcases hc with h | h | h | h
      · simp [h]
      · have : ¬PteValid (k.mem.load64 pte) := fun hp => hp h
        simp [this]
      · by_cases h' : pte ≠ 0 ∧ PteValid (k.mem.load64 pte) <;> simp [h', h]
      · by_cases h' : pte ≠ 0 ∧ PteValid (k.mem.load64 pte) <;> simp [h', h]
    · simp only [not_or] at hc
      obtain ⟨h0, hV, hU, hW⟩ := hc
      rw [if_neg (by tauto), if_pos (show pte ≠ 0 ∧ PteValid (k.mem.load64 pte) from ⟨h0, hV⟩)]
      simp only [hU, hW, ne_eq, not_false_eq_true, imp_self, and_self, if_true]
      rw [add_offset_toNat, pageChunk_toNat]

/-- Every page of a tree with an aligned root is aligned. -/
theorem nodePage_aligned {m : Mem} (hr : pt % 4096 = 0) :
    ∀ {a t}, nodePage m pt a = some t → t % 4096 = 0
  | .l2, t, h => by
    cases h
    exact hr
  | .l1 i, t, h => by
    simp only [nodePage, follow] at h
    split_ifs at h
    cases h
    exact pte2pa_aligned _
  | .l0 i j, t, h => by
    simp only [nodePage, Option.bind_eq_some_iff] at h
    obtain ⟨t', -, h⟩ := h
    unfold follow at h
    split_ifs at h
    cases h
    exact pte2pa_aligned _

/-- The entry a lookup reads, in two memories that agree on it. -/
theorem leaf_if_congr {m m' : Mem} {pte : Nat} (h : pte ≠ 0 → m'.load64 pte = m.load64 pte) :
    (if pte ≠ 0 ∧ PteValid (m'.load64 pte) then some (m'.load64 pte) else none) =
      if pte ≠ 0 ∧ PteValid (m.load64 pte) then some (m.load64 pte) else none := by
  by_cases h0 : pte = 0
  · simp [h0]
  · rw [h h0]

/-- A memory that agrees on every page of the tree has the same map. -/
theorem lookup_congr_mem {k' : Kmem} (h : ∀ a t, nodePage k.mem pt a = some t → PageAgree k.mem k'.mem t)
    (w : UInt64) : k'.lookup pt w = k.lookup pt w := by
  obtain ⟨hnode, -⟩ := congr_of_agree h
  unfold Kmem.lookup walk
  split_ifs
  · rfl
  · rw [walkLoop_false, walkLoop_false, hnode]
    refine leaf_if_congr fun h0 => ?_
    cases ht : nodePage k.mem pt (.l0 ⟨px 2 w, px_lt 2 w⟩ ⟨px 1 w, px_lt 1 w⟩) with
    | none =>
      rw [ht] at h0
      exact absurd rfl h0
    | some t =>
      have hload := pteAt_congr (px_lt 0 w) (h _ t ht)
      simp only [pteAt] at hload
      simp only [Option.elim]
      exact hload

theorem userPte_congr_lookup {k' : Kmem} (h : ∀ w, k'.lookup pt w = k.lookup pt w) (write : Bool)
    (x : Nat) : k'.userPte pt write x = k.userPte pt write x := by
  simp only [Kmem.userPte, h]

/-- A writable user page is a user page. -/
theorem userPte_of_write {x : Nat} {e : UInt64} (h : k.userPte pt true x = some e) :
    k.userPte pt false x = some e := by
  unfold Kmem.userPte at h ⊢
  split_ifs at h ⊢ with hx
  split at h
  · split_ifs at h with hu
    cases h
    simp only [hu.1, ne_eq, not_false_eq_true, false_implies, and_self, if_true]
  · cases h

/-- A write inside a page that is no page of the tree keeps the tree and the map. -/
theorem write_in_page (hr : pt % 4096 = 0) {pa a n : Nat} (hpa : pa % 4096 = 0)
    (hnt : ¬IsTable k.mem pt pa) (ha : pa ≤ a) (hn : a + n ≤ pa + 4096) (f : Nat → UInt8) :
    (∀ c, nodePage (k.mem.write a n f) pt c = nodePage k.mem pt c) ∧
      ∀ w, Kmem.lookup ⟨k.mem.write a n f, k.freelist⟩ pt w = k.lookup pt w := by
  have hagree : ∀ c t, nodePage k.mem pt c = some t → PageAgree k.mem (k.mem.write a n f) t :=
    fun c t ht => pageAgree_write_of_apart f hpa (nodePage_aligned hr ht)
      (fun h => hnt ⟨c, h ▸ ht⟩) ha hn
  have hlk : ∀ w, Kmem.lookup ⟨k.mem.write a n f, k.freelist⟩ pt w = k.lookup pt w :=
    lookup_congr_mem hagree
  exact ⟨(congr_of_agree hagree).1, hlk⟩

/-- The writable user pages of a table with an aligned root map distinct
physical pages, none of them a page of the table. -/
structure WritableApart (k : Kmem) (pt : Nat) : Prop where
  root : pt % 4096 = 0
  notTable : ∀ x e, k.userPte pt true x = some e → ¬IsTable k.mem pt (pte2pa e).toNat
  inj : ∀ x y e e', k.userPte pt true x = some e → k.userPte pt true y = some e' →
    pte2pa e = pte2pa e' → x / 4096 = y / 4096

theorem WritableApart.congr {k₁ : Kmem} (hw : WritableApart k pt)
    (hnode : ∀ c, nodePage k₁.mem pt c = nodePage k.mem pt c) (hlk : ∀ w, k₁.lookup pt w = k.lookup pt w) :
    WritableApart k₁ pt := by
  have hup := userPte_congr_lookup hlk true
  refine ⟨hw.root, fun x e he ⟨c, hc⟩ => ?_, fun x y e e' hx hy => ?_⟩
  · rw [hup] at he
    rw [hnode] at hc
    exact hw.notTable x e he ⟨c, hc⟩
  · rw [hup] at hx hy
    exact hw.inj x y e e' hx hy

/-- Bytes of two different writable user pages are different physical bytes. -/
theorem WritableApart.target_ne (hw : WritableApart k pt) {x y : Nat} {e e' : UInt64}
    (hx : k.userPte pt true x = some e) (hy : k.userPte pt true y = some e')
    (hxy : x / 4096 ≠ y / 4096) : (pte2pa e).toNat + x % 4096 ≠ (pte2pa e').toNat + y % 4096 := by
  intro h
  by_cases heq : pte2pa e = pte2pa e'
  · exact hxy (hw.inj x y e e' hx hy heq)
  · have hne : (pte2pa e).toNat ≠ (pte2pa e').toNat := fun h' => heq (UInt64.toNat_inj.mp h')
    have := apart_of_aligned (pte2pa_aligned e) (pte2pa_aligned e') hne
    omega

/-- What `copyoutLoop` from `dstva` (at `s`) leaves: the allocator, the tree
and the map as they were; no physical byte changed but the bytes of
`[s, s + len)` in writable user pages; on `0` those bytes hold `src`; `-1`
exactly when one of them is not in a writable user page. -/
structure CopyoutPost (pt : Nat) (k : Kmem) (s : Nat) (src : Nat → UInt8) (len : Nat)
    (res : Int × Kmem) : Prop where
  freelist : res.2.freelist = k.freelist
  nodes : ∀ c, nodePage res.2.mem pt c = nodePage k.mem pt c
  map : ∀ w, res.2.lookup pt w = k.lookup pt w
  frame : ∀ x, (∀ i < len, ∀ e, k.userPte pt true (s + i) = some e →
    x ≠ (pte2pa e).toNat + (s + i) % 4096) → res.2.mem x = k.mem x
  ok : (∀ i < len, (k.userPte pt true (s + i)).isSome) →
    res.1 = 0 ∧ ∀ i < len, res.2.userByte pt false (s + i) = some (src i)
  fail : ¬(∀ i < len, (k.userPte pt true (s + i)).isSome) → res.1 = -1

theorem copyoutLoop_spec :
    ∀ fuel k dstva (src : Nat → UInt8) (len : UInt64), WritableApart k pt → len.toNat < fuel →
      ∃ res, copyoutLoop pt fuel k dstva src len = .ok res ∧
        CopyoutPost pt k dstva.toNat src len.toNat res
  | 0, _, _, _, _, _, hfuel => absurd hfuel (Nat.not_lt_zero _)
  | fuel + 1, k, dstva, src, len, hw, hfuel => by
    by_cases hlen : len > 0
    swap
    · -- nothing left to copy
      have h0 : len.toNat = 0 := by
        have := UInt64.le_iff_toNat_le.mp (UInt64.not_lt.mp hlen)
        rw [UInt64.toNat_zero] at this
        omega
      refine ⟨(0, k), by rw [copyoutLoop, if_neg hlen]; rfl, rfl, fun _ => rfl, fun _ => rfl,
        fun _ _ => rfl, fun _ => ⟨rfl, fun i hi => absurd hi (by omega)⟩,
        fun h => absurd (fun i hi => absurd hi (by omega)) h⟩
    have hL := UInt64.lt_iff_toNat_lt.mp hlen
    rw [UInt64.toNat_zero] at hL
    rw [copyoutLoop_step hlen]
    cases hpte : k.userPte pt true dstva.toNat with
    | none =>
      -- the first page is not a writable user page
      refine ⟨(-1, k), rfl, rfl, fun _ => rfl, fun _ => rfl, fun _ _ => rfl, fun h => ?_, fun _ => rfl⟩
      have h₀ := h 0 hL
      rw [Nat.add_zero, hpte] at h₀
      cases h₀
    | some e =>
      dsimp only
      have hs := lt_maxva_of_userPte hpte
      set n := min (4096 - dstva.toNat % 4096) len.toNat with hn
      set p := (pte2pa e).toNat + dstva.toNat % 4096 with hp
      obtain ⟨hnode₁, hlk₁⟩ := write_in_page hw.root (pte2pa_aligned e) (hw.notTable _ _ hpte)
        (a := p) (n := n) (by omega) (by omega) src
      set k₁ : Kmem := ⟨k.mem.write p n src, k.freelist⟩
      have hw₁ : WritableApart k₁ pt := hw.congr hnode₁ hlk₁
      have hup := userPte_congr_lookup hlk₁
      have hlen' : (len - if pgsize - (dstva - pgrounddown dstva) > len then len
          else pgsize - (dstva - pgrounddown dstva)).toNat = len.toNat - n := by
        rw [UInt64.toNat_sub_of_le _ _ (UInt64.le_iff_toNat_le.mpr (by rw [pageChunk_toNat]; omega)),
          pageChunk_toNat]
      obtain ⟨res, hrun, hpost⟩ := copyoutLoop_spec fuel k₁ (pgrounddown dstva + pgsize)
        (fun i => src (n + i)) _ hw₁ (by rw [hlen']; omega)
      obtain ⟨hfl, hnode, hlk, hframe, hok, hfail⟩ := hpost
      rw [hlen', next_page_toNat hs] at hframe hok hfail
      -- the rest starts at `dstva + n`, when there is a rest
      have hrest : ∀ i, i < len.toNat - n → dstva.toNat - dstva.toNat % 4096 + 4096 + i =
          dstva.toNat + (n + i) := fun i hi => by omega
      have hsame : ∀ i < n, k.userPte pt true (dstva.toNat + i) = some e := fun i hi => by
        rw [userPte_congr (show (dstva.toNat + i) / 4096 = dstva.toNat / 4096 by omega), hpte]
      -- a byte of this page is no byte of a later page
      have hlater : ∀ i < n, ∀ j < len.toNat - n, ∀ e', k₁.userPte pt true
          (dstva.toNat - dstva.toNat % 4096 + 4096 + j) = some e' →
          p + i ≠ (pte2pa e').toNat + (dstva.toNat - dstva.toNat % 4096 + 4096 + j) % 4096 :=
        fun i hi j hj e' he' => by
          rw [hup, hrest j hj] at he'
          have := hw.target_ne (hsame i hi) he' (by omega)
          rw [hrest j hj, show (pte2pa e).toNat + (dstva.toNat + i) % 4096 = p + i by omega] at *
          exact this
      refine ⟨res, hrun, hfl, fun c => (hnode c).trans (hnode₁ c), fun w => (hlk w).trans (hlk₁ w),
        fun x hx => ?_, fun hall => ?_, fun hnot => hfail fun hall' => hnot fun i hi => ?_⟩
      · -- only the bytes of `[dstva, dstva + len)` change
        rw [hframe x fun i hi e' he' => ?_]
        · show k.mem.write p n src x = k.mem x
          refine Mem.write_of_disjoint _ _ ?_
          by_contra hin
          have := hx (x - p) (by omega) e (hsame _ (by omega))
          omega
        · rw [hup, hrest i hi] at he'
          have := hx (n + i) (by omega) e' he'
          rwa [hrest i hi]
      · obtain ⟨hr, hbytes⟩ := hok fun i hi => by
          rw [hup, hrest i hi]
          exact hall (n + i) (by omega)
        refine ⟨hr, fun i hi => ?_⟩
        have hlk' : ∀ w, res.2.lookup pt w = k.lookup pt w := fun w => (hlk w).trans (hlk₁ w)
        by_cases hin : i < n
        · -- a byte of this page: written here, and not again later
          rw [Kmem.userByte, userPte_congr_lookup hlk', userPte_of_write (hsame i hin),
            Option.map_some, show (pte2pa e).toNat + (dstva.toNat + i) % 4096 = p + i by omega,
            hframe (p + i) fun j hj e' he' => hlater i hin j hj e' he']
          show some (k.mem.write p n src (p + i)) = some (src i)
          rw [Mem.write_of_mem _ _ (by omega) (by omega), Nat.add_sub_cancel_left]
        · have := hbytes (i - n) (by omega)
          rwa [hrest (i - n) (by omega), show n + (i - n) = i by omega] at this
      · by_cases hin : i < n
        · rw [hsame i hin]
          rfl
        · have h' := hall' (i - n) (by omega)
          rwa [hup, hrest (i - n) (by omega), show n + (i - n) = i by omega] at h'

end Copyout

/-! ## The user map as `copyin`, `copyout` and `copyinstr` see it -/

instance (k : Kmem) (pt s max j : Nat) : Decidable (k.UserStr pt s max j) :=
  inferInstanceAs (Decidable (j < max ∧ (∀ i ≤ j, (k.userPte pt false (s + i)).isSome) ∧
    k.userByte pt false (s + j) = some 0 ∧ ∀ i < j, k.userByte pt false (s + i) ≠ some 0))

section UserMap

variable {k : Kmem} {pt : Nat}

/-- A result that is `0` when `P` holds and `-1` when it does not is `0` exactly when `P` holds. -/
theorem eq_zero_iff_of_ok_fail {r : Int} {P : Prop} (hok : P → r = 0) (hfail : ¬P → r = -1) :
    r = 0 ↔ P := by
  refine ⟨fun hr => ?_, hok⟩
  by_contra hp
  rw [hfail hp] at hr
  exact absurd hr (by decide)

/-- The user view of a table that maps the page `va` alone, to the entry `e₀`:
the addresses of that page, when `e₀` lets the user in. -/
theorem userPte_of_single {va e₀ : UInt64} (hva : va.toNat % 4096 = 0)
    (hlk : ∀ w, w < maxva → w.toNat % 4096 = 0 → k.lookup pt w = if w = va then some e₀ else none)
    (write : Bool) (x : Nat) :
    k.userPte pt write x = if x / 4096 = va.toNat / 4096 ∧ x < maxva.toNat ∧
      e₀ &&& pteU ≠ 0 ∧ (write → e₀ &&& pteW ≠ 0) then some e₀ else none := by
  unfold Kmem.userPte
  by_cases hx : x < maxva.toNat
  · rw [maxva_toNat] at hx
    have hw : (UInt64.ofNat (x / 4096 * 4096)).toNat = x / 4096 * 4096 := by
      rw [UInt64.toNat_ofNat']
      exact Nat.mod_eq_of_lt (by omega)
    rw [if_pos (by rw [maxva_toNat]; exact hx),
      hlk _ (UInt64.lt_iff_toNat_lt.mpr (by rw [hw, maxva_toNat]; omega)) (by rw [hw]; omega)]
    -- the page of `x` is `va` exactly when their page numbers agree
    have hpage : UInt64.ofNat (x / 4096 * 4096) = va ↔ x / 4096 = va.toNat / 4096 := by
      rw [← UInt64.toNat_inj, hw]
      omega
    by_cases hp : x / 4096 = va.toNat / 4096
    · have hlt : x < 274877906944 := hx
      rw [if_pos (hpage.mpr hp)]
      simp [hp, hlt]
    · rw [if_neg (mt hpage.mp hp), if_neg fun h => hp h.1]
  · rw [if_neg hx, if_neg fun h => hx h.2.1]

/-- `kmemHi`'s table, as `copyin`, `copyout` and `copyinstr` see it: virtual
page `0` is the one user page, readable and writable, and its bytes are those
of physical page `0x80003000`, which is no page of the table. -/
theorem kmemHi_user :
    ∃ k', mappages kmemHi 0x80000000 0 4096 0x80003000 (pteR ||| pteW ||| pteU) = .ok (0, k') ∧
      (∀ write x, k'.userPte 0x80000000 write x =
        if x < 4096 then some (pa2pte 0x80003000 ||| (pteR ||| pteW ||| pteU) ||| pteV) else none) ∧
      (∀ write x e, k'.userPte 0x80000000 write x = some e → pte2pa e = 0x80003000) ∧
      (∀ write x, x < 4096 → k'.userByte 0x80000000 write x = some (hiMem (0x80003000 + x))) ∧
      ∀ t, IsTable k'.mem 0x80000000 t → t = 0x80000000 ∨ t = 0x80001000 ∨ t = 0x80002000 := by
  obtain ⟨k', hm, -, -, hlk, htab, hout⟩ := kmemHi_mapped
  have hup : ∀ write x, k'.userPte 0x80000000 write x =
      if x < 4096 then some (pa2pte 0x80003000 ||| (pteR ||| pteW ||| pteU) ||| pteV) else none := by
    intro write x
    rw [userPte_of_single (by decide) hlk]
    by_cases hx : x < 4096
    · rw [if_pos ⟨by simp only [UInt64.reduceToNat]; omega, by rw [maxva_toNat]; omega, by decide,
        fun _ => by decide⟩, if_pos hx]
    · rw [if_neg fun h => hx (by have := h.1; simp only [UInt64.reduceToNat] at this; omega),
        if_neg hx]
  have hpa : ∀ write x e, k'.userPte 0x80000000 write x = some e → pte2pa e = 0x80003000 := by
    intro write x e h
    rw [hup] at h
    split_ifs at h
    cases h
    decide
  refine ⟨k', hm, hup, hpa, fun write x hx => ?_, htab⟩
  -- the user page lies above the three pages of the table
  have hoff : OutsideTables k'.mem 0x80000000 (0x80003000 + x) := fun t ht => by
    rcases htab t ht with rfl | rfl | rfl <;> omega
  simp only [Kmem.userByte, hup, if_pos hx, Option.map_some]
  rw [show (pte2pa (pa2pte 0x80003000 ||| (pteR ||| pteW ||| pteU) ||| pteV)).toNat = 0x80003000 by
    decide, Nat.mod_eq_of_lt hx, hout _ hoff]

theorem copy_guarded_by_user_map (k : Kmem) (pt : Nat) :
    ((∀ x e, k.userPte pt false x = some e → pte2pa e ≠ 0) →
      ∀ srcva len : UInt64, ∃ r out, copyin k pt srcva len = .ok (r, out) ∧
        (r = 0 ↔ ∀ i < len.toNat, (k.userPte pt false (srcva.toNat + i)).isSome) ∧
        (r = 0 → out = (List.range len.toNat).map fun i =>
          (k.userByte pt false (srcva.toNat + i)).getD 0)) ∧
    (WritableApart k pt →
      ∀ (dstva : UInt64) (src : Nat → UInt8) (len : UInt64), ∃ r k', copyout k pt dstva src len = .ok (r, k') ∧
        (r = 0 ↔ ∀ i < len.toNat, (k.userPte pt true (dstva.toNat + i)).isSome) ∧
        (r = 0 → ∀ i < len.toNat, k'.userByte pt false (dstva.toNat + i) = some (src i)) ∧
        ∀ x, (∀ i < len.toNat, ∀ e, k.userPte pt true (dstva.toNat + i) = some e →
          x ≠ (pte2pa e).toNat + (dstva.toNat + i) % 4096) → k'.mem x = k.mem x) := by
  constructor
  · intro hz srcva len
    obtain ⟨r, out, hrun, hall, hnot⟩ := copyinLoop_spec hz (len.toNat + 1) [] srcva len
      (Nat.lt_succ_self _)
    have hiff := eq_zero_iff_of_ok_fail (fun h => (hall h).1) hnot
    refine ⟨r, out, hrun, hiff, fun hr => ?_⟩
    rw [(hall (hiff.mp hr)).2, List.nil_append]
  · intro hw dstva src len
    obtain ⟨⟨r, k'⟩, hrun, hpost⟩ := copyoutLoop_spec (len.toNat + 1) k dstva src len hw
      (Nat.lt_succ_self _)
    have hiff := eq_zero_iff_of_ok_fail (fun h => (hpost.ok h).1) hpost.fail
    exact ⟨r, k', hrun, hiff, fun hr => (hpost.ok (hiff.mp hr)).2, hpost.frame⟩

/-- One user page, mapped readable and writable at virtual page `0` through
two page-table pages taken from the free list, meets both conditions: `copyin`
of its first three bytes returns `"hi"` and the `0` after it, and `copyout` of
two bytes to the end of the page writes them there. -/
theorem copy_guarded_by_user_map_one_page :
    ∃ k', mappages kmemHi 0x80000000 0 4096 0x80003000 (pteR ||| pteW ||| pteU) = .ok (0, k') ∧
      (∀ x e, k'.userPte 0x80000000 false x = some e → pte2pa e ≠ 0) ∧ WritableApart k' 0x80000000 ∧
      (∃ out, copyin k' 0x80000000 0 3 = .ok (0, out) ∧ out = [104, 105, 0]) ∧
      ∃ k'', copyout k' 0x80000000 4094 (fun _ => 7) 2 = .ok (0, k'') ∧
        k''.userByte 0x80000000 false 4094 = some 7 ∧ k''.userByte 0x80000000 false 4095 = some 7 := by
  obtain ⟨k', hm, hup, hpa, hbyte, htab⟩ := kmemHi_user
  have hz : ∀ x e, k'.userPte 0x80000000 false x = some e → pte2pa e ≠ 0 := fun x e h => by
    rw [hpa false x e h]
    decide
  have hw : WritableApart k' 0x80000000 := by
    refine ⟨by decide, fun x e h ht => ?_, fun x y e e' hx hy _ => ?_⟩
    · -- the user page is not one of the table's three pages
      rw [hpa true x e h] at ht
      rcases htab _ ht with h | h | h <;> exact absurd h (by decide)
    · rw [hup] at hx hy
      split_ifs at hx hy with h₁ h₂
      omega
  have hsome : ∀ write x, x < 4096 → (k'.userPte 0x80000000 write x).isSome := fun write x hx => by
    rw [hup, if_pos hx]
    rfl
  obtain ⟨hin, hout⟩ := copy_guarded_by_user_map k' 0x80000000
  obtain ⟨r, out, hrun, hiff, hdata⟩ := hin hz 0 3
  have hr : r = 0 := hiff.mpr fun i hi =>
    hsome false _ (by simp only [UInt64.reduceToNat] at hi ⊢; omega)
  subst hr
  refine ⟨k', hm, hz, hw, ⟨out, hrun, ?_⟩, ?_⟩
  · rw [hdata rfl]
    simp only [UInt64.reduceToNat, show List.range 3 = [0, 1, 2] from rfl, List.map_cons, List.map_nil,
      UInt64.reduceToNat, Nat.zero_add, hbyte false _ (by decide : 0 < 4096),
      hbyte false _ (by decide : 1 < 4096), hbyte false _ (by decide : 2 < 4096), Option.getD_some]
    decide
  · obtain ⟨r', k'', hrun', hiff', hdata', -⟩ := hout hw 4094 (fun _ => 7) 2
    have hr' : r' = 0 := hiff'.mpr fun i hi =>
      hsome true _ (by simp only [UInt64.reduceToNat] at hi ⊢; omega)
    subst hr'
    exact ⟨k'', hrun', hdata' rfl 0 (by decide), hdata' rfl 1 (by decide)⟩

/-- `walkaddr` answers `0` both for no mapping and for a mapping of physical
page `0`: page `0` mapped readable to user at physical page `0`, and `copyin`
of its first byte fails. -/
theorem copyin_rejects_page_zero :
    ∃ k', mappages ⟨fun _ => 0, [0x80001000, 0x80002000]⟩ 0x80000000 0 4096 0 (pteR ||| pteU) =
        .ok (0, k') ∧ (k'.userPte 0x80000000 false 0).isSome ∧
      ∃ out, copyin k' 0x80000000 0 1 = .ok (-1, out) := by
  have h : (match mappages ⟨fun _ => 0, [0x80001000, 0x80002000]⟩ 0x80000000 0 4096 0 (pteR ||| pteU) with
      | .ok (v, k') => decide (v = 0) && (k'.userPte 0x80000000 false 0).isSome &&
        (match copyin k' 0x80000000 0 1 with
          | .ok (r, _) => decide (r = -1)
          | .error _ => false)
      | .error _ => false) = true := by decide +kernel
  cases hm : mappages ⟨fun _ => 0, [0x80001000, 0x80002000]⟩ 0x80000000 0 4096 0 (pteR ||| pteU) with
  | error err =>
    rw [hm] at h
    cases h
  | ok res =>
    obtain ⟨v, k'⟩ := res
    rw [hm] at h
    simp only [Bool.and_eq_true, decide_eq_true_eq] at h
    obtain ⟨⟨rfl, hsome⟩, hcopy⟩ := h
    refine ⟨k', rfl, hsome, ?_⟩
    cases hc : copyin k' 0x80000000 0 1 with
    | error err =>
      rw [hc] at hcopy
      cases hcopy
    | ok res =>
      obtain ⟨r, out⟩ := res
      rw [hc] at hcopy
      simp only [decide_eq_true_eq] at hcopy
      rw [hcopy]
      exact ⟨out, rfl⟩

theorem copyinstr_bounded_string (k : Kmem) (pt : Nat)
    (hz : ∀ x e, k.userPte pt false x = some e → pte2pa e ≠ 0) (srcva max : UInt64) :
    ∃ r out, copyinstr k pt srcva max = .ok (r, out) ∧ out.length ≤ max.toNat ∧
      (r = 0 ↔ ∃ j, k.UserStr pt srcva.toNat max.toNat j) ∧
      ∀ j, k.UserStr pt srcva.toNat max.toNat j →
        out = (List.range (j + 1)).map fun i => (k.userByte pt false (srcva.toNat + i)).getD 0 := by
  obtain ⟨r, new, hrun, hlen, -, hiff, hnew⟩ :=
    copyinstrLoop_spec hz (max.toNat + 1) [] srcva max (Nat.lt_succ_self _)
  rw [List.nil_append] at hrun
  exact ⟨r, new, hrun, hlen, hiff, hnew⟩

/-- The user page of `kmemHi`'s table holds the string `"hi"`: `copyinstr`
of at most 16 bytes from its start copies the string and its `0`. -/
theorem copyinstr_bounded_string_one_page :
    ∃ k', mappages kmemHi 0x80000000 0 4096 0x80003000 (pteR ||| pteW ||| pteU) = .ok (0, k') ∧
      (∀ x e, k'.userPte 0x80000000 false x = some e → pte2pa e ≠ 0) ∧ k'.UserStr 0x80000000 0 16 2 ∧
      ∃ out, copyinstr k' 0x80000000 0 16 = .ok (0, out) ∧ out = [104, 105, 0] := by
  obtain ⟨k', hm, hup, hpa, hbyte, -⟩ := kmemHi_user
  have hz : ∀ x e, k'.userPte 0x80000000 false x = some e → pte2pa e ≠ 0 := fun x e h => by
    rw [hpa false x e h]
    decide
  -- `'h'`, `'i'`, then the `0` that ends the string
  have hstr : k'.UserStr 0x80000000 0 16 2 := by
    refine ⟨by decide, fun i hi => ?_, ?_, fun i hi => ?_⟩
    · rw [hup, if_pos (by omega)]
      rfl
    · rw [hbyte false _ (by decide)]
      decide
    · rw [hbyte false _ (by omega)]
      obtain rfl | rfl : i = 0 ∨ i = 1 := by omega
      all_goals decide
  obtain ⟨r, out, hrun, -, hiff, hout⟩ := copyinstr_bounded_string k' 0x80000000 hz 0 16
  obtain rfl : r = 0 := hiff.mpr ⟨2, hstr⟩
  refine ⟨k', hm, hz, hstr, out, hrun, ?_⟩
  rw [hout 2 hstr]
  simp only [show List.range (2 + 1) = [0, 1, 2] from rfl, List.map_cons, List.map_nil,
    UInt64.reduceToNat, Nat.zero_add, hbyte false _ (by decide : 0 < 4096),
    hbyte false _ (by decide : 1 < 4096), hbyte false _ (by decide : 2 < 4096), Option.getD_some]
  decide

/-- The same page `0` at physical page `0` holds the empty string, `"\0"`,
and `copyinstr` of it fails. -/
theorem copyinstr_rejects_page_zero :
    ∃ k', mappages ⟨fun _ => 0, [0x80001000, 0x80002000]⟩ 0x80000000 0 4096 0 (pteR ||| pteU) =
        .ok (0, k') ∧ k'.UserStr 0x80000000 0 1 0 ∧
      ∃ out, copyinstr k' 0x80000000 0 1 = .ok (-1, out) := by
  have h : (match mappages ⟨fun _ => 0, [0x80001000, 0x80002000]⟩ 0x80000000 0 4096 0 (pteR ||| pteU) with
      | .ok (v, k') => decide (v = 0) && decide (k'.UserStr 0x80000000 0 1 0) &&
        (match copyinstr k' 0x80000000 0 1 with
          | .ok (r, _) => decide (r = -1)
          | .error _ => false)
      | .error _ => false) = true := by decide +kernel
  cases hm : mappages ⟨fun _ => 0, [0x80001000, 0x80002000]⟩ 0x80000000 0 4096 0 (pteR ||| pteU) with
  | error err =>
    rw [hm] at h
    cases h
  | ok res =>
    obtain ⟨v, k'⟩ := res
    rw [hm] at h
    simp only [Bool.and_eq_true, decide_eq_true_eq] at h
    obtain ⟨⟨rfl, hstr⟩, hcopy⟩ := h
    refine ⟨k', rfl, hstr, ?_⟩
    cases hc : copyinstr k' 0x80000000 0 1 with
    | error err =>
      rw [hc] at hcopy
      cases hcopy
    | ok res =>
      obtain ⟨r, out⟩ := res
      rw [hc] at hcopy
      simp only [decide_eq_true_eq] at hcopy
      rw [hcopy]
      exact ⟨out, rfl⟩

end UserMap

end Xv6.Kernel
