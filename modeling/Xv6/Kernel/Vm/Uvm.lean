import Xv6.Kernel.Vm.Fill

/-!
# Growing and copying an address space

`uvmalloc`, `uvmdealloc` and `uvmcopy` of `vm.c`. `uvmalloc` and `uvmcopy`
are filling loops (`FillInv`): they fill the pages of a range one at a time
and, on failure, free the page in hand and unmap and free the pages mapped so
far (`uvmdealloc`, or `uvmunmap` at `err`).

* `uvmalloc_fails_atomically` — from unmapped pages and an `xperm` within the
  flag bits, `uvmalloc` maps every page up to `newsz` to a fresh zeroed page,
  or returns `0` with the map as it was and every page it took given back;
* `uvmcopy_all_or_nothing` — from a parent whose pages are mapped by leaves
  into an empty child, `uvmcopy` gives the child fresh copies of every page,
  or returns `-1` with the child's range unmapped and every page given back.
-/

namespace Xv6.Kernel

open Xv6.Lib

/-- `uvmdealloc(pagetable, oldsz, newsz)`. `npages` is an `int`, and
`uvmunmap` takes it back as a `uint64`. -/
def uvmdealloc (kend : Nat) (k : Kmem) (pt : Nat) (oldsz newsz : UInt64) :
    Except String (UInt64 × Kmem) :=
  if newsz ≥ oldsz then .ok (oldsz, k)
  else if pgroundup newsz < pgroundup oldsz then do
    let npages : Int32 := ((pgroundup oldsz - pgroundup newsz) / pgsize).toUInt32.toInt32
    let k ← uvmunmap kend k pt (pgroundup newsz) npages.toInt64.toUInt64 true
    return (newsz, k)
  else .ok (newsz, k)

/-- The loop of `uvmalloc` from page `a`; `oldsz` is rounded up already, and
`perm` is `PTE_R | PTE_U | xperm`. A pass that goes on maps a page below
`newsz`, so `newsz / PGSIZE + 2` passes finish it. -/
def uvmallocLoop (kend pt : Nat) (oldsz newsz perm : UInt64) :
    Nat → Kmem → UInt64 → Except String (UInt64 × Kmem)
  | 0, _, _ => .error "uvmalloc: out of fuel"
  | fuel + 1, k, a =>
    if a < newsz then do
      let (mem, k) := kalloc k
      if mem = 0 then
        let (_, k) ← uvmdealloc kend k pt a oldsz
        return (0, k)
      let k : Kmem := ⟨k.mem.memset mem 0 4096, k.freelist⟩
      let (v, k) ← mappages k pt a pgsize (UInt64.ofNat mem) perm
      if v ≠ 0 then
        let k ← kfree kend k mem
        let (_, k) ← uvmdealloc kend k pt a oldsz
        return (0, k)
      uvmallocLoop kend pt oldsz newsz perm fuel k (a + pgsize)
    else .ok (newsz, k)

/-- `uvmalloc(pagetable, oldsz, newsz, xperm)`: `newsz`, or `0` when out of
memory. `xperm` is an `int`, which `PTE_R | PTE_U | xperm` widens to 64 bits. -/
def uvmalloc (kend : Nat) (k : Kmem) (pt : Nat) (oldsz newsz : UInt64) (xperm : Int32) :
    Except String (UInt64 × Kmem) :=
  if newsz < oldsz then .ok (oldsz, k)
  else
    uvmallocLoop kend pt (pgroundup oldsz) newsz (pteR ||| pteU ||| xperm.toInt64.toUInt64)
      (newsz.toNat / 4096 + 2) k (pgroundup oldsz)

/-- The loop of `uvmcopy(old, new, sz)` from page `i`. A failure frees the
page just taken and goes to `err`: `uvmunmap(new, 0, i / PGSIZE, 1)`. A pass
that goes on copies a page below `sz`, so `sz / PGSIZE + 2` passes finish it. -/
def uvmcopyLoop (kend old new : Nat) (sz : UInt64) :
    Nat → Kmem → UInt64 → Except String (Int × Kmem)
  | 0, _, _ => .error "uvmcopy: out of fuel"
  | fuel + 1, k, i =>
    if i < sz then do
      let (pte, k) ← walk k old i false
      if pte = 0 then throw "uvmcopy: pte should exist"
      if k.mem.load64 pte &&& pteV = 0 then throw "uvmcopy: page not present"
      let pa := pte2pa (k.mem.load64 pte)
      -- `uint flags`: the ten flag bits, which `mappages` takes as its `int perm`
      let flags := pteFlags (k.mem.load64 pte)
      let (mem, k) := kalloc k
      if mem = 0 then
        let k ← uvmunmap kend k new 0 (i / pgsize) true
        return (-1, k)
      -- `memmove(mem, (char *)pa, PGSIZE)`
      let k : Kmem := ⟨k.mem.write mem 4096 fun j => k.mem (pa.toNat + j), k.freelist⟩
      let (v, k) ← mappages k new i pgsize (UInt64.ofNat mem) flags
      if v ≠ 0 then
        let k ← kfree kend k mem
        let k ← uvmunmap kend k new 0 (i / pgsize) true
        return (-1, k)
      uvmcopyLoop kend old new sz fuel k (i + pgsize)
    else return (0, k)

/-- `uvmcopy(old, new, sz)`: `0`, or `-1` when out of memory. -/
def uvmcopy (kend : Nat) (k : Kmem) (old new : Nat) (sz : UInt64) : Except String (Int × Kmem) :=
  uvmcopyLoop kend old new sz (sz.toNat / 4096 + 2) k 0

/-! ## `uvmdealloc` as a rollback -/

section Dealloc

variable {kend r : Nat} {k k₀ : Kmem} {a0 : UInt64} {fl : UInt64 → UInt64}
  {cont : UInt64 → Nat → UInt8}

/-- `PGROUNDUP` of a page-aligned address is the address. -/
theorem pgroundup_of_aligned {x : UInt64} (hx : x.toNat % 4096 = 0) (hlt : x.toNat + 4095 < 2 ^ 64) :
    pgroundup x = x :=
  UInt64.toNat_inj.mp (by rw [pgroundup_toNat hlt]; omega)

/-- A count below `2^31` passes through an `int` unchanged. -/
theorem toInt32_roundtrip {u : UInt64} (h : u.toNat < 2 ^ 31) :
    u.toUInt32.toInt32.toInt64.toUInt64 = u := by
  have hmax : Int32.maxValue.toInt = 2147483647 := by decide
  rw [← UInt64.ofNat_toNat (x := u), UInt64.toUInt32_ofNat', UInt32.toInt32_ofNat',
    Int32.toInt64_ofNat' (by omega), Int64.toUInt64_ofNat']

/-- `uvmdealloc(pagetable, a, a0)`, as `uvmalloc` calls it on failure, is the
rollback of `[a0, a)`. -/
theorem FillInv.dealloc (hpt₀ : PtInv kend k₀ r) {pg : UInt64 → Nat} {a : UInt64}
    (hI : FillInv kend r k₀ a0 fl cont pg a k) (ha0 : a0.toNat % 4096 = 0)
    (ha : a.toNat % 4096 = 0) (h0a : a0.toNat ≤ a.toNat) (ham : a.toNat ≤ maxva.toNat)
    (hfl : ∀ w : UInt64, w.toNat % 4096 = 0 → a0.toNat ≤ w.toNat → w.toNat < a.toNat →
      (fl w).toNat < 1024 ∧ fl w ||| pteV ≠ pteV) :
    ∃ v k', uvmdealloc kend k r a a0 = .ok (v, k') ∧ RolledBack kend r k₀ k' := by
  rw [maxva_toNat] at ham
  unfold uvmdealloc
  by_cases hge : a0 ≥ a
  · -- nothing was filled
    have hge' := UInt64.le_iff_toNat_le.mp hge
    refine ⟨a, k, if_pos hge, hI.inv, fun w hw hwa => hI.other w hw hwa (by omega),
      fun q hq => ?_⟩
    rcases hI.kept q hq with h | h | ⟨w, -, h₁, h₂, -⟩
    · exact .inl h
    · exact .inr h
    · omega
  have hlt : a0.toNat < a.toNat := by
    have := UInt64.lt_iff_toNat_lt.mp (UInt64.not_le.mp hge)
    omega
  rw [pgroundup_of_aligned ha0 (by omega), pgroundup_of_aligned ha (by omega)]
  have hn : ((a - a0) / pgsize).toNat < 2 ^ 31 := by
    rw [UInt64.toNat_div, UInt64.toNat_sub_of_le _ _ (UInt64.le_iff_toNat_le.mpr h0a), pgsize_toNat]
    omega
  obtain ⟨k', hk', hrb⟩ := hI.rollback hpt₀ ha0 ha h0a (by rw [maxva_toNat]; omega) hfl
  refine ⟨a0, k', ?_, hrb⟩
  rw [if_neg hge, if_pos (UInt64.lt_iff_toNat_lt.mpr hlt)]
  simp only [toInt32_roundtrip hn, hk']
  rfl

end Dealloc

/-! ## `uvmalloc` -/

section Alloc

variable {kend r : Nat} {k₀ : Kmem}

theorem trapframe_toNat : trapframe.toNat = 2 ^ 38 - 8192 := rfl

/-- What `uvmallocLoop` from page `a` returns: `newsz` with the pages from `a0`
up to `newsz` filled with zeros, or `0` with everything rolled back. -/
def AllocPost (kend r : Nat) (k₀ : Kmem) (a0 newsz perm : UInt64) (res : UInt64 × Kmem) : Prop :=
  (res.1 = newsz ∧ ∃ pg aEnd, FillInv kend r k₀ a0 (fun _ => perm) (fun _ _ => 0) pg aEnd res.2 ∧
    ∀ w : UInt64, w.toNat % 4096 = 0 → a0.toNat ≤ w.toNat →
      (w.toNat < aEnd.toNat ↔ w.toNat < newsz.toNat)) ∨
  (res.1 = 0 ∧ RolledBack kend r k₀ res.2)

theorem uvmallocLoop_spec (hpt₀ : PtInv kend k₀ r) {a0 newsz perm : UInt64}
    (hperm : perm.toNat < 1024) (hleaf : perm ||| pteV ≠ pteV) (ha0 : a0.toNat % 4096 = 0)
    (hnew : newsz.toNat ≤ trapframe.toNat)
    (hunm : ∀ w : UInt64, w.toNat % 4096 = 0 → a0.toNat ≤ w.toNat → w.toNat < newsz.toNat →
      k₀.lookup r w = none) :
    ∀ fuel k a pg, FillInv kend r k₀ a0 (fun _ => perm) (fun _ _ => 0) pg a k →
      a.toNat % 4096 = 0 → a0.toNat ≤ a.toNat →
      (∀ w : UInt64, w.toNat % 4096 = 0 → a0.toNat ≤ w.toNat → w.toNat < a.toNat →
        w.toNat < newsz.toNat) →
      (newsz.toNat - a.toNat + 4095) / 4096 < fuel →
      ∃ res, uvmallocLoop kend r a0 newsz perm fuel k a = .ok res ∧
        AllocPost kend r k₀ a0 newsz perm res
  | 0, _, _, _, _, _, _, _, hfuel => absurd hfuel (Nat.not_lt_zero _)
  | fuel + 1, k, a, pg, hI, ha, h0a, hbelow, hfuel => by
    by_cases hlt : a < newsz
    swap
    · -- the loop test fails: every page up to `newsz` is filled
      have hge := UInt64.le_iff_toNat_le.mp (UInt64.not_lt.mp hlt)
      exact ⟨(newsz, k), by rw [uvmallocLoop, if_neg hlt],
        .inl ⟨rfl, pg, a, hI, fun w hwa h₁ => ⟨hbelow w hwa h₁, fun h => by omega⟩⟩⟩
    have hlt' := UInt64.lt_iff_toNat_lt.mp hlt
    have ham : a.toNat + 4096 ≤ maxva.toNat := by
      rw [maxva_toNat]
      rw [trapframe_toNat] at hnew
      omega
    -- a failure at page `a` unmaps `[a0, a)`
    have hback : ∀ {k'}, FillInv kend r k₀ a0 (fun _ => perm) (fun _ _ => 0) pg a k' →
        ∃ v k'', uvmdealloc kend k' r a a0 = .ok (v, k'') ∧ RolledBack kend r k₀ k'' :=
      fun hI' => hI'.dealloc hpt₀ ha0 ha h0a (by omega) fun _ _ _ _ => ⟨hperm, hleaf⟩
    rcases hk : kalloc k with ⟨p, k₁⟩
    by_cases hp : p = 0
    · -- no page for the data
      subst hp
      have hk₁ : k₁ = k := hI.inv.kalloc_zero hk
      subst hk₁
      obtain ⟨v, k', hd, hrb⟩ := hback hI
      refine ⟨(0, k'), ?_, .inr ⟨rfl, hrb⟩⟩
      rw [uvmallocLoop, if_pos hlt]
      simp only [hk, if_true, hd]
      rfl
    obtain ⟨v, k₂, hres, hok, hfail⟩ := hI.fill hpt₀ ha h0a ham (hunm a ha h0a hlt') hk hp
      (fun _ => 0) fun _ _ => rfl
    have hres' : mappages ⟨k₁.mem.memset p 0 4096, k₁.freelist⟩ r a pgsize (UInt64.ofNat p) perm =
        .ok (v, k₂) := hres
    have hstep : uvmallocLoop kend r a0 newsz perm (fuel + 1) k a =
        if v ≠ 0 then (Xv6.Kernel.kfree kend k₂ p >>= fun k₃ =>
          uvmdealloc kend k₃ r a a0 >>= fun x => pure (0, x.2))
        else uvmallocLoop kend r a0 newsz perm fuel k₂ (a + pgsize) := by
      rw [uvmallocLoop, if_pos hlt]
      simp only [hk, hp, if_false, hres']
      rfl
    by_cases hv : v = 0
    · -- the page is mapped: on to the next
      have hnext : (a + pgsize).toNat = a.toNat + 4096 := by
        rw [UInt64.toNat_add, pgsize_toNat]
        rw [maxva_toNat] at ham
        omega
      obtain ⟨res, hrun, hpost⟩ := uvmallocLoop_spec hpt₀ hperm hleaf ha0 hnew hunm fuel k₂
        (a + pgsize) (Function.update pg a p) (hok hv) (by rw [hnext]; omega) (by omega)
        (fun w hwa h₁ h₂ => by
          rw [hnext] at h₂
          have := UInt64.lt_iff_toNat_lt.mp hlt
          omega)
        (by rw [hnext]; omega)
      exact ⟨res, by rw [hstep, if_neg (not_not.mpr hv)]; exact hrun, hpost⟩
    · -- `mappages` failed: `kfree`, then roll back
      obtain ⟨k₃, hk₃, hI₃⟩ := hfail hv
      obtain ⟨v', k', hd, hrb⟩ := hback hI₃
      refine ⟨(0, k'), ?_, .inr ⟨rfl, hrb⟩⟩
      rw [hstep, if_pos hv, hk₃]
      simp only [bind, Except.bind, hd]
      rfl

end Alloc

/-! ## `uvmalloc` against its contract -/

section AllocContract

variable {kend r : Nat} {k : Kmem}

/-- `PTE_R | PTE_U | xperm` for an `xperm` within the flag bits: ten bits,
readable, so a leaf. -/
theorem uvmPerm_flags {xperm : Int32} (hx0 : 0 ≤ xperm.toInt) (hx : xperm.toInt < 1024) :
    (pteR ||| pteU ||| xperm.toInt64.toUInt64).toNat < 1024 ∧
      pteR ||| pteU ||| xperm.toInt64.toUInt64 ||| pteV ≠ pteV := by
  have hx64 : xperm.toInt64.toUInt64.toNat < 1024 := by
    rw [Int64.toNat_toUInt64_of_le (Int64.le_iff_toInt_le.mpr (by simpa using hx0))]
    simp only [Int64.toNatClampNeg, Int32.toInt_toInt64]
    omega
  refine ⟨?_, fun h => ?_⟩
  · rw [UInt64.toNat_or, UInt64.toNat_or]
    exact Nat.or_lt_two_pow (n := 10) (Nat.or_lt_two_pow (by decide) (by decide)) hx64
  · -- the read bit is set on the left only
    have h₁ := congrArg (fun e => e.toNat.testBit 1) h
    simp only [UInt64.toNat_or, Nat.testBit_or] at h₁
    have hR : pteR.toNat.testBit 1 = true := by decide
    have hV : pteV.toNat.testBit 1 = false := by decide
    simp [hR, hV] at h₁

/-- `uvmalloc` from `oldsz` to `newsz`, over pages `[PGROUNDUP(oldsz), newsz)`
that are unmapped, with `xperm` within the flag bits: it returns `newsz` and
maps each of those pages to a distinct page that was free, is zero-filled, and
carries `PTE_R | PTE_U | xperm`; or it returns `0` with the map as before and
every page that was free free again or a page of the table. -/
theorem uvmalloc_fails_atomically (hpt : PtInv kend k r) (oldsz newsz : UInt64) (xperm : Int32)
    (hx0 : 0 ≤ xperm.toInt) (hx : xperm.toInt < 1024) (hsz : oldsz ≤ newsz)
    (hnew : newsz ≤ trapframe)
    (hunm : ∀ w : UInt64, w.toNat % 4096 = 0 → (pgroundup oldsz).toNat ≤ w.toNat →
      w.toNat < newsz.toNat → k.lookup r w = none) :
    ∃ v k', uvmalloc kend k r oldsz newsz xperm = .ok (v, k') ∧ PtInv kend k' r ∧
      ((v = newsz ∧ ∃ pg : UInt64 → Nat,
          (∀ w : UInt64, w < maxva → w.toNat % 4096 = 0 →
            k'.lookup r w = if (pgroundup oldsz).toNat ≤ w.toNat ∧ w.toNat < newsz.toNat
              then some (pa2pte (UInt64.ofNat (pg w)) ||| (pteR ||| pteU ||| xperm.toInt64.toUInt64) |||
                pteV)
              else k.lookup r w) ∧
          (∀ w : UInt64, w.toNat % 4096 = 0 → (pgroundup oldsz).toNat ≤ w.toNat →
            w.toNat < newsz.toNat →
            pg w ∈ k.freelist ∧ pg w ∉ k'.freelist ∧ ¬IsTable k'.mem r (pg w) ∧
            (∀ i < 4096, k'.mem (pg w + i) = 0) ∧
            pte2pa (pa2pte (UInt64.ofNat (pg w)) ||| (pteR ||| pteU ||| xperm.toInt64.toUInt64) |||
              pteV) = UInt64.ofNat (pg w) ∧
            pteFlags (pa2pte (UInt64.ofNat (pg w)) ||| (pteR ||| pteU ||| xperm.toInt64.toUInt64) |||
              pteV) = pteR ||| pteU ||| xperm.toInt64.toUInt64 ||| pteV) ∧
          ∀ w w' : UInt64, w.toNat % 4096 = 0 → w'.toNat % 4096 = 0 →
            (pgroundup oldsz).toNat ≤ w.toNat → w.toNat < newsz.toNat →
            (pgroundup oldsz).toNat ≤ w'.toNat → w'.toNat < newsz.toNat → pg w = pg w' → w = w') ∨
        (v = 0 ∧ (∀ w : UInt64, w < maxva → w.toNat % 4096 = 0 → k'.lookup r w = k.lookup r w) ∧
          ∀ p ∈ k.freelist, p ∈ k'.freelist ∨ IsTable k'.mem r p)) := by
  obtain ⟨hperm, hleaf⟩ := uvmPerm_flags hx0 hx
  have hnew' : newsz.toNat ≤ trapframe.toNat := UInt64.le_iff_toNat_le.mp hnew
  have hsz' : oldsz.toNat ≤ newsz.toNat := UInt64.le_iff_toNat_le.mp hsz
  rw [trapframe_toNat] at hnew'
  have ha0 : (pgroundup oldsz).toNat = (oldsz.toNat + 4095) / 4096 * 4096 :=
    pgroundup_toNat (by omega)
  obtain ⟨⟨v, k'⟩, hrun, hpost⟩ := uvmallocLoop_spec hpt hperm hleaf (by omega)
    (by rw [trapframe_toNat]; exact hnew') hunm (newsz.toNat / 4096 + 2) k (pgroundup oldsz) (fun _ => 0)
    (FillInv.start hpt _) (by omega) le_rfl (fun _ _ h₁ h₂ => absurd h₂ (by omega)) (by omega)
  refine ⟨v, k', by rw [uvmalloc, if_neg (UInt64.not_lt.mpr hsz)]; exact hrun, ?_⟩
  rcases hpost with ⟨hv, pg, aEnd, hI, hend⟩ | ⟨hv, hrb⟩
  · -- every page up to `newsz` is filled with zeros
    refine ⟨hI.inv, .inl ⟨hv, pg, fun w hw hwa => ?_, fun w hwa h₁ h₂ => ?_,
      fun w w' hwa hwa' h₁ h₂ h₁' h₂' => hI.inj w w' hwa hwa' h₁ ((hend w hwa h₁).mpr h₂) h₁'
        ((hend w' hwa' h₁').mpr h₂')⟩⟩
    · split_ifs with hin
      · exact (hI.filled w hwa hin.1 ((hend w hwa hin.1).mpr hin.2)).1
      · refine hI.other w hw hwa fun h => hin ⟨h.1, (hend w hwa h.1).mp h.2⟩
    · have h₂' := (hend w hwa h₁).mpr h₂
      obtain ⟨-, hw₀, hnf, hnt, hb⟩ := hI.filled w hwa h₁ h₂'
      obtain ⟨hofNat, hal, -⟩ := hI.page_range hpt hwa h₁ h₂'
      obtain ⟨hpa, hflags⟩ := decode_mk (x := UInt64.ofNat (pg w)) (by rw [hofNat]; exact hal) hperm
      exact ⟨hw₀, hnf, hnt, hb, hpa, hflags⟩
  · exact ⟨hrb.inv, .inr ⟨hv, hrb.map, hrb.freed⟩⟩

theorem uvmalloc_fails_atomically_empty :
    PtInv 0x80000000 ⟨fun _ => 0, [0x80001000, 0x80002000, 0x80003000]⟩ 0x80000000 ∧
      ∃ v k', uvmalloc 0x80000000 ⟨fun _ => 0, [0x80001000, 0x80002000, 0x80003000]⟩ 0x80000000
        0 4096 4 = .ok (v, k') ∧ PtInv 0x80000000 k' 0x80000000 := by
  have hpt : PtInv 0x80000000 ⟨fun _ => 0, [0x80001000, 0x80002000, 0x80003000]⟩ 0x80000000 :=
    PtInv.of_zero ⟨by decide, by decide, by decide, by decide⟩ (by decide) (by decide) (by decide)
      fun _ _ _ => rfl
  obtain ⟨v, k', hres, hpt', -⟩ := uvmalloc_fails_atomically hpt 0 4096 4 (by decide) (by decide)
    (by decide) (by decide) fun w _ _ _ => lookup_of_zero (fun _ _ _ => rfl) _ w
  exact ⟨hpt, v, k', hres, hpt'⟩

/-- `xperm` is not checked: with bit `10` set, the entry's page number is one
more than the page `kalloc` gave, and the page mapped was never allocated. -/
theorem uvmalloc_high_xperm :
    ∃ k', uvmalloc 0x80000000 ⟨fun _ => 0, [0x80004000, 0x80001000, 0x80002000]⟩ 0x80000000
        0 4096 1024 = .ok (4096, k') ∧
      ∃ e, k'.lookup 0x80000000 0 = some e ∧ pte2pa e = 0x80005000 ∧
        (0x80005000 : Nat) ∉ [0x80004000, 0x80001000, 0x80002000] := by
  have h : ((uvmalloc 0x80000000 ⟨fun _ => 0, [0x80004000, 0x80001000, 0x80002000]⟩
      0x80000000 0 4096 1024).toOption.bind fun r =>
        (r.2.lookup 0x80000000 0).map fun e => decide (r.1 = 4096 ∧ pte2pa e = 0x80005000)) =
      some true := by
    decide +kernel
  cases hm : uvmalloc 0x80000000 ⟨fun _ => 0, [0x80004000, 0x80001000, 0x80002000]⟩
      0x80000000 0 4096 1024 with
  | error err =>
    rw [hm] at h
    cases h
  | ok res =>
    obtain ⟨v, k'⟩ := res
    rw [hm] at h
    cases hl : k'.lookup 0x80000000 0 with
    | none =>
      simp [Except.toOption, hl] at h
    | some e =>
      simp only [Except.toOption, hl, Option.bind_some, Option.map_some, Option.some.injEq,
        decide_eq_true_eq] at h
      obtain ⟨rfl, hpa⟩ := h
      exact ⟨k', rfl, e, hl, hpa, by decide⟩

end AllocContract
/-! ## `uvmcopy` -/

section Copy

variable {kend old new : Nat} {k k₀ : Kmem} {sz : UInt64}

/-- The parent's entry for page `w`; `0` where it has none. -/
def Kmem.entryAt (k : Kmem) (pt : Nat) (w : UInt64) : UInt64 := (k.lookup pt w).getD 0

/-- The parent's side of a copy of `[0, sz)`: its table is well formed and
apart from the child's table and the free list, each page is mapped by a leaf,
and each page it maps is neither free nor a page of the child's table. -/
structure CopySrc (k : Kmem) (old new : Nat) (sz : UInt64) : Prop where
  tree : TreeInv k.mem old
  tables : ∀ t, IsTable k.mem old t → ¬IsTable k.mem new t ∧ t ∉ k.freelist
  mapped : ∀ w : UInt64, w.toNat % 4096 = 0 → w.toNat < sz.toNat →
    ∃ e, k.lookup old w = some e ∧ pteFlags e ≠ pteV
  pages : ∀ w : UInt64, w.toNat % 4096 = 0 → w.toNat < sz.toNat → ∀ e, k.lookup old w = some e →
    (pte2pa e).toNat ∉ k.freelist ∧ ¬IsTable k.mem new (pte2pa e).toNat

/-- What `uvmcopyLoop` returns: `0` with the child's pages `[0, sz)` filled
with copies of the parent's, or `-1` with everything rolled back. -/
def CopyPost (kend old new : Nat) (k₀ : Kmem) (sz : UInt64) (res : Int × Kmem) : Prop :=
  (res.1 = 0 ∧ ∃ pg iEnd, FillInv kend new k₀ 0 (fun w => pteFlags (k₀.entryAt old w))
      (fun w j => k₀.mem ((pte2pa (k₀.entryAt old w)).toNat + j)) pg iEnd res.2 ∧
    ∀ w : UInt64, w.toNat % 4096 = 0 → (w.toNat < iEnd.toNat ↔ w.toNat < sz.toNat)) ∨
  (res.1 = -1 ∧ RolledBack kend new k₀ res.2)

/-- The flags of a parent leaf can be unmapped again: within the flag bits and
a leaf's. -/
theorem CopySrc.flags (hsrc : CopySrc k₀ old new sz) {w : UInt64} (hwa : w.toNat % 4096 = 0)
    (hw : w.toNat < sz.toNat) :
    (pteFlags (k₀.entryAt old w)).toNat < 1024 ∧ pteFlags (k₀.entryAt old w) ||| pteV ≠ pteV := by
  obtain ⟨e, he, hleaf⟩ := hsrc.mapped w hwa hw
  obtain ⟨-, -, -, -, hv⟩ := walk_of_lookup hsrc.tree he
  have hentry : k₀.entryAt old w = e := by simp [Kmem.entryAt, he]
  rw [hentry, pteFlags_or_valid hv, pteFlags_toNat]
  exact ⟨Nat.mod_lt _ (by decide), hleaf⟩

theorem uvmcopyLoop_spec (hpt₀ : PtInv kend k₀ new) (hsrc : CopySrc k₀ old new sz)
    (hunm : ∀ w : UInt64, w.toNat % 4096 = 0 → w.toNat < sz.toNat → k₀.lookup new w = none) :
    ∀ fuel k i pg, FillInv kend new k₀ 0 (fun w => pteFlags (k₀.entryAt old w))
        (fun w j => k₀.mem ((pte2pa (k₀.entryAt old w)).toNat + j)) pg i k →
      i.toNat % 4096 = 0 →
      (∀ w : UInt64, w.toNat % 4096 = 0 → w.toNat < i.toNat → w.toNat < sz.toNat) →
      (sz.toNat - i.toNat + 4095) / 4096 < fuel →
      ∃ res, uvmcopyLoop kend old new sz fuel k i = .ok res ∧ CopyPost kend old new k₀ sz res
  | 0, _, _, _, _, _, _, hfuel => absurd hfuel (Nat.not_lt_zero _)
  | fuel + 1, k, i, pg, hI, hi, hbelow, hfuel => by
    by_cases hlt : i < sz
    swap
    · -- the loop test fails: every page below `sz` is copied
      have hge := UInt64.le_iff_toNat_le.mp (UInt64.not_lt.mp hlt)
      exact ⟨(0, k), by rw [uvmcopyLoop, if_neg hlt]; rfl,
        .inl ⟨rfl, pg, i, hI, fun w hwa => ⟨hbelow w hwa, fun h => by omega⟩⟩⟩
    have hlt' := UInt64.lt_iff_toNat_lt.mp hlt
    obtain ⟨e, hlk₀, -⟩ := hsrc.mapped i hi hlt'
    have hima := lt_maxva_of_lookup hlk₀
    have ham : i.toNat + 4096 ≤ maxva.toNat := by
      have := UInt64.lt_iff_toNat_lt.mp hima
      rw [maxva_toNat] at this ⊢
      omega
    -- the parent's entry for page `i`, read through its unchanged table
    obtain ⟨htree, hlkold⟩ := hI.evolves.keeps_tree hpt₀ hsrc.tree hsrc.tables
    obtain ⟨t, ht, hw, hload, hv⟩ := walk_of_lookup htree ((hlkold i hima).trans hlk₀)
    have hne : t + 8 * px 0 i ≠ 0 := by
      have := htree.pos _ t ht
      omega
    have hV : ¬(k.mem.load64 (t + 8 * px 0 i) &&& pteV = 0) := by
      rw [hload]
      exact hv
    have hentry : k₀.entryAt old i = e := by simp [Kmem.entryAt, hlk₀]
    -- a failure at page `i` unmaps `[0, i)`
    have hback : ∀ {k'}, FillInv kend new k₀ 0 (fun w => pteFlags (k₀.entryAt old w))
        (fun w j => k₀.mem ((pte2pa (k₀.entryAt old w)).toNat + j)) pg i k' →
        ∃ k'', uvmunmap kend k' new 0 (i / pgsize) true = .ok k'' ∧ RolledBack kend new k₀ k'' :=
      fun hI' => by
        obtain ⟨k'', hk'', hrb⟩ := hI'.rollback hpt₀ (by decide) hi (Nat.zero_le _) (by omega)
          fun w hwa _ h₂ => hsrc.flags hwa (hbelow w hwa h₂)
        rw [UInt64.sub_zero] at hk''
        exact ⟨k'', hk'', hrb⟩
    rcases hk : kalloc k with ⟨p, k₁⟩
    by_cases hp : p = 0
    · -- no page for the copy
      subst hp
      have hk₁ : k₁ = k := hI.inv.kalloc_zero hk
      subst hk₁
      obtain ⟨k', hk', hrb⟩ := hback hI
      refine ⟨(-1, k'), ?_, .inr ⟨rfl, hrb⟩⟩
      rw [uvmcopyLoop, if_pos hlt]
      simp only [hw, bind, Except.bind, hne, hV, if_false, hk, if_true, hk']
      rfl
    -- the parent's page is untouched, and apart from the page `kalloc` gave
    obtain ⟨hpnf, hpnt⟩ := hsrc.pages i hi hlt' e hlk₀
    have hsame := hI.evolves.untouched hpt₀ (pte2pa_aligned e) hpnt hpnf
    have hpk : p ∈ k₀.freelist := hI.evolves.shrinks p (kalloc_mem hk hp).1
    have hpne : p ≠ (pte2pa e).toNat := fun h => hpnf (h ▸ hpk)
    have hpal : p % 4096 = 0 := hpt₀.free.aligned p hpk
    have hf : ∀ j < 4096, k₁.mem ((pte2pa e).toNat + j) =
        k₀.mem ((pte2pa (k₀.entryAt old i)).toNat + j) := fun j hj => by
      have := apart_of_aligned hpal (pte2pa_aligned e) hpne
      rw [kalloc_mem_outside hk (by omega), hsame _ (by omega) (by omega), hentry]
    obtain ⟨v, k₂, hres, hok, hfail⟩ := hI.fill hpt₀ hi (Nat.zero_le _) ham (hunm i hi hlt') hk hp
      (fun j => k₁.mem ((pte2pa e).toNat + j)) hf
    simp only [hentry] at hres
    have hstep : uvmcopyLoop kend old new sz (fuel + 1) k i =
        if v ≠ 0 then (Xv6.Kernel.kfree kend k₂ p >>= fun k₃ =>
          uvmunmap kend k₃ new 0 (i / pgsize) true >>= fun k₄ => pure (-1, k₄))
        else uvmcopyLoop kend old new sz fuel k₂ (i + pgsize) := by
      rw [uvmcopyLoop, if_pos hlt]
      have hv' : ¬(e &&& pteV = 0) := hv
      simp only [hw, bind, Except.bind, hne, hload, hv', if_false, hk, hp, hres]
    by_cases hv0 : v = 0
    · -- the page is mapped: on to the next
      have hnext : (i + pgsize).toNat = i.toNat + 4096 := by
        rw [UInt64.toNat_add, pgsize_toNat]
        rw [maxva_toNat] at ham
        omega
      obtain ⟨res, hrun, hpost⟩ := uvmcopyLoop_spec hpt₀ hsrc hunm fuel k₂ (i + pgsize)
        (Function.update pg i p) (hok hv0) (by rw [hnext]; omega)
        (fun w hwa h₂ => by
          rw [hnext] at h₂
          omega)
        (by rw [hnext]; omega)
      exact ⟨res, by rw [hstep, if_neg (not_not.mpr hv0)]; exact hrun, hpost⟩
    · -- `mappages` failed: `kfree`, then `err`
      obtain ⟨k₃, hk₃, hI₃⟩ := hfail hv0
      obtain ⟨k', hk', hrb⟩ := hback hI₃
      refine ⟨(-1, k'), ?_, .inr ⟨rfl, hrb⟩⟩
      rw [hstep, if_pos hv0, hk₃]
      simp only [bind, Except.bind, hk']
      rfl

end Copy

/-! ## `uvmcopy` against its contract -/

section CopyContract

variable {kend old new : Nat} {k : Kmem} {sz : UInt64}

/-- `uvmcopy` from a parent whose pages `[0, sz)` are mapped by leaves into a
child with none of them mapped: it returns `0`, and the child maps each page
to a page that was free, distinct from the others and from the parent's, with
the parent's flags and a copy of its bytes, the parent's map unchanged; or it
returns `-1` with none of the child's pages `[0, sz)` mapped and every page
that was free free again or a page of the child's table. -/
theorem uvmcopy_all_or_nothing (hpt : PtInv kend k new) (hsrc : CopySrc k old new sz)
    (hempty : ∀ w : UInt64, w.toNat % 4096 = 0 → w.toNat < sz.toNat → k.lookup new w = none) :
    ∃ v k', uvmcopy kend k old new sz = .ok (v, k') ∧
      ((v = 0 ∧ ∃ pg : UInt64 → Nat,
          (∀ w : UInt64, w.toNat % 4096 = 0 → w.toNat < sz.toNat → ∃ e, k.lookup old w = some e ∧
            k'.lookup new w = some (pa2pte (UInt64.ofNat (pg w)) ||| pteFlags e ||| pteV) ∧
            pte2pa (pa2pte (UInt64.ofNat (pg w)) ||| pteFlags e ||| pteV) = UInt64.ofNat (pg w) ∧
            pteFlags (pa2pte (UInt64.ofNat (pg w)) ||| pteFlags e ||| pteV) = pteFlags e ∧
            pg w ∈ k.freelist ∧ pg w ∉ k'.freelist ∧ ¬IsTable k'.mem new (pg w) ∧
            (∀ j < 4096, k'.mem (pg w + j) = k'.mem ((pte2pa e).toNat + j)) ∧
            ∀ j < 4096, k'.mem ((pte2pa e).toNat + j) = k.mem ((pte2pa e).toNat + j)) ∧
          (∀ w w' : UInt64, ∀ e', w.toNat % 4096 = 0 → w'.toNat % 4096 = 0 → w.toNat < sz.toNat →
            w'.toNat < sz.toNat → k.lookup old w' = some e' → pg w ≠ (pte2pa e').toNat) ∧
          (∀ w w' : UInt64, w.toNat % 4096 = 0 → w'.toNat % 4096 = 0 → w.toNat < sz.toNat →
            w'.toNat < sz.toNat → pg w = pg w' → w = w') ∧
          ∀ w, w < maxva → k'.lookup old w = k.lookup old w) ∨
        (v = -1 ∧ (∀ w : UInt64, w.toNat % 4096 = 0 → w.toNat < sz.toNat → k'.lookup new w = none) ∧
          ∀ p ∈ k.freelist, p ∈ k'.freelist ∨ IsTable k'.mem new p)) := by
  obtain ⟨⟨v, k'⟩, hrun, hpost⟩ := uvmcopyLoop_spec hpt hsrc hempty (sz.toNat / 4096 + 2) k 0
    (fun _ => 0) (FillInv.start hpt _) (by decide) (fun _ _ h => absurd h (Nat.not_lt_zero _))
    (by omega)
  refine ⟨v, k', hrun, ?_⟩
  rcases hpost with ⟨hv, pg, iEnd, hI, hend⟩ | ⟨hv, hrb⟩
  · -- every page was copied
    have hold := (hI.evolves.keeps_tree hpt hsrc.tree hsrc.tables).2
    refine .inl ⟨hv, pg, fun w hwa hw => ?_, fun w w' e' hwa hwa' hw hw' he' h => ?_,
      fun w w' hwa hwa' hw hw' => hI.inj w w' hwa hwa' (Nat.zero_le _) ((hend w hwa).mpr hw)
        (Nat.zero_le _) ((hend w' hwa').mpr hw'), hold⟩
    · obtain ⟨e, he, -⟩ := hsrc.mapped w hwa hw
      have hentry : k.entryAt old w = e := by simp [Kmem.entryAt, he]
      have hin := (hend w hwa).mpr hw
      obtain ⟨hlk, hw₀, hnf, hnt, hb⟩ := hI.filled w hwa (Nat.zero_le _) hin
      simp only [hentry] at hlk hb
      obtain ⟨hofNat, hal, -⟩ := hI.page_range hpt hwa (Nat.zero_le _) hin
      obtain ⟨-, -, -, -, hvalid⟩ := walk_of_lookup hsrc.tree he
      have hflt : (pteFlags e).toNat < 1024 := by
        rw [pteFlags_toNat]
        exact Nat.mod_lt _ (by decide)
      obtain ⟨hpa, hflags⟩ := decode_mk (x := UInt64.ofNat (pg w)) (by rw [hofNat]; exact hal) hflt
      rw [pteFlags_or_valid hvalid] at hflags
      -- the parent's page is never written
      obtain ⟨hpnf, hpnt⟩ := hsrc.pages w hwa hw e he
      have hsame := hI.evolves.untouched hpt (pte2pa_aligned e) hpnt hpnf
      refine ⟨e, he, hlk, hpa, hflags, hw₀, hnf, hnt, fun j hj => ?_,
        fun j hj => hsame _ (by omega) (by omega)⟩
      rw [hb j hj, hsame _ (by omega) (by omega)]
    · -- a page that was free is no page of the parent
      have hw₀ := (hI.filled w hwa (Nat.zero_le _) ((hend w hwa).mpr hw)).2.1
      exact (hsrc.pages w' hwa' hw' e' he').1 (h ▸ hw₀)
  · -- rolled back: the child maps none of `[0, sz)`
    refine .inr ⟨hv, fun w hwa hw => ?_, hrb.freed⟩
    obtain ⟨e, he, -⟩ := hsrc.mapped w hwa hw
    rw [hrb.map w (lt_maxva_of_lookup he) hwa]
    exact hempty w hwa hw

/-- A parent with page `0` mapped by `mappages` beside an empty child meets
the hypotheses, and `uvmcopy` returns. -/
theorem uvmcopy_all_or_nothing_one_page :
    ∃ k₁, mappages ⟨fun _ => 0, [0x80002000, 0x80003000, 0x80004000, 0x80005000, 0x80006000]⟩
        0x80000000 0 4096 0x80010000 (pteR ||| pteU) = .ok (0, k₁) ∧
      ∃ v k', uvmcopy 0x80000000 k₁ 0x80000000 0x80001000 4096 = .ok (v, k') := by
  set k₀ : Kmem := ⟨fun _ => 0, [0x80002000, 0x80003000, 0x80004000, 0x80005000, 0x80006000]⟩
  have hzero₀ : ∀ s x, s ≤ x → x < s + 4096 → k₀.mem x = 0 := fun _ _ _ _ => rfl
  have hold₀ : PtInv 0x80000000 k₀ 0x80000000 :=
    PtInv.of_zero ⟨by decide, by decide, by decide, by decide⟩ (by decide) (by decide) (by decide)
      (hzero₀ _)
  obtain ⟨-, ⟨v, k₁⟩, hres, hpost⟩ := mappages_spec hold₀ 0 4096 0x80010000 (pteR ||| pteU)
    (by decide) (by decide) (by decide) (by decide) fun w _ _ _ => lookup_of_zero (hzero₀ _) _ w
  -- both page-table pages are there to take, so the parent's page is mapped
  have hv : (match mappages k₀ 0x80000000 0 4096 0x80010000 (pteR ||| pteU) with
      | .ok (v, _) => v | .error _ => 1) = 0 := by decide +kernel
  rw [hres] at hv
  dsimp only at hv
  subst hv
  -- the child's root is no page of the parent's table, so it stays zero
  have hnt₀ : ¬IsTable k₀.mem 0x80000000 0x80001000 := fun ⟨c, hc⟩ => by
    rw [nodePage_of_zero (hzero₀ _)] at hc
    split_ifs at hc
    exact absurd (Option.some.inj hc) (by decide)
  obtain ⟨hnf₁, hnt₁, hb₁⟩ := hpost.grows.keeps_page hpost.inv (by decide) (by decide) hnt₀
  have hzero₁ : ∀ x, 0x80001000 ≤ x → x < 0x80001000 + 4096 → k₁.mem x = 0 := hb₁
  have hnew₁ : PtInv 0x80000000 k₁ 0x80001000 :=
    PtInv.of_zero hpost.inv.free (by decide) (by decide) hnf₁ hzero₁
  have hchild : ∀ t, IsTable k₁.mem 0x80001000 t → t = 0x80001000 := fun t ⟨c, hc⟩ => by
    rw [nodePage_of_zero hzero₁] at hc
    split_ifs at hc
    exact (Option.some.inj hc).symm
  have hfl₁ : ∀ p ∈ k₁.freelist, p ∈ k₀.freelist := fun p hp => by
    obtain ⟨n, hl, -⟩ := hpost.grows.taken
    exact List.mem_of_mem_drop (hl ▸ hp)
  -- the one page of `[0, 4096)` is `0`, mapped to `0x80010000`
  have hpage : ∀ w : UInt64, w.toNat % 4096 = 0 → w.toNat < (4096 : UInt64).toNat → w = 0 :=
    fun w _ hw => UInt64.toNat_inj.mp (by
      have : (4096 : UInt64).toNat = 4096 := rfl
      show w.toNat = 0
      omega)
  obtain ⟨n, hn, hlk⟩ := hpost.pages
  have hn1 : n = 1 := by
    rcases hn with ⟨-, hn⟩ | ⟨h, -⟩
    · have : (0 + 4096 - pgsize : UInt64).toNat = 0 := rfl
      rw [this] at hn
      have : (0 : UInt64).toNat = 0 := rfl
      omega
    · cases h
  subst hn1
  have hlk0 : k₁.lookup 0x80000000 0 =
      some (pa2pte (0x80010000 + (0 - 0)) ||| (pteR ||| pteU) ||| pteV) := by
    rw [hlk 0 (by decide) (by decide), if_pos (by decide)]
  have hmapped : ∀ w : UInt64, w.toNat % 4096 = 0 → w.toNat < (4096 : UInt64).toNat →
      ∃ e, k₁.lookup 0x80000000 w = some e ∧ pteFlags e ≠ pteV := fun w hwa hw => by
    rw [hpage w hwa hw]
    exact ⟨_, hlk0, by decide⟩
  have hpages : ∀ w : UInt64, w.toNat % 4096 = 0 → w.toNat < (4096 : UInt64).toNat →
      ∀ e, k₁.lookup 0x80000000 w = some e →
        (pte2pa e).toNat ∉ k₁.freelist ∧ ¬IsTable k₁.mem 0x80001000 (pte2pa e).toNat :=
    fun w hwa hw e he => by
      rw [hpage w hwa hw, hlk0] at he
      cases he
      refine ⟨fun h => absurd (hfl₁ _ h) (by decide), fun h => ?_⟩
      exact absurd (hchild _ h) (by decide)
  have hsrc : CopySrc k₁ 0x80000000 0x80001000 4096 :=
    ⟨hpost.inv.tree, fun t ht => ⟨fun h => hnt₁ (hchild t h ▸ ht), fun hmem => hpost.inv.disj t hmem ht⟩,
      hmapped, hpages⟩
  obtain ⟨v', k', hrun, -⟩ := uvmcopy_all_or_nothing hnew₁ hsrc
    fun w _ _ => lookup_of_zero hzero₁ k₁.freelist w
  exact ⟨k₁, hres, v', k', hrun⟩

/-- A parent whose page `0` is mapped by an entry with `PTE_V` alone: `uvmcopy`
copies the entry as it is; when `kalloc` then fails at page `1`, the cleanup
`uvmunmap` finds that entry in the child and panics, so `uvmcopy` returns
neither `0` nor `-1`. -/
theorem uvmcopy_valid_only_leaf :
    ∃ k₁ k₂, mappages ⟨fun _ => 0, [0x80002000, 0x80003000, 0x80004000, 0x80005000, 0x80006000]⟩
        0x80000000 0 4096 0x80010000 0 = .ok (0, k₁) ∧
      mappages k₁ 0x80000000 4096 4096 0x80011000 (pteR ||| pteU) = .ok (0, k₂) ∧
      (k₂.lookup 0x80000000 0).isSome ∧ (k₂.lookup 0x80000000 4096).isSome ∧
      k₂.lookup 0x80001000 0 = none ∧ k₂.lookup 0x80001000 4096 = none ∧
      uvmcopy 0x80000000 k₂ 0x80000000 0x80001000 8192 = .error "uvmunmap: not a leaf" := by
  have h : (match mappages ⟨fun _ => 0, [0x80002000, 0x80003000, 0x80004000, 0x80005000,
      0x80006000]⟩ 0x80000000 0 4096 0x80010000 0 with
      | .ok (v₁, k₁) => decide (v₁ = 0) && (match mappages k₁ 0x80000000 4096 4096 0x80011000
          (pteR ||| pteU) with
        | .ok (v₂, k₂) => decide (v₂ = 0) && (k₂.lookup 0x80000000 0).isSome &&
            (k₂.lookup 0x80000000 4096).isSome && (k₂.lookup 0x80001000 0).isNone &&
            (k₂.lookup 0x80001000 4096).isNone &&
            (match uvmcopy 0x80000000 k₂ 0x80000000 0x80001000 8192 with
            | .error msg => decide (msg = "uvmunmap: not a leaf")
            | .ok _ => false)
        | .error _ => false)
      | .error _ => false) = true := by decide +kernel
  cases hm₁ : mappages ⟨fun _ => 0, [0x80002000, 0x80003000, 0x80004000, 0x80005000,
      0x80006000]⟩ 0x80000000 0 4096 0x80010000 0 with
  | error err =>
    rw [hm₁] at h
    cases h
  | ok res₁ =>
    obtain ⟨v₁, k₁⟩ := res₁
    rw [hm₁] at h
    dsimp only at h
    cases hm₂ : mappages k₁ 0x80000000 4096 4096 0x80011000 (pteR ||| pteU) with
    | error err =>
      rw [hm₂] at h
      simp at h
    | ok res₂ =>
      obtain ⟨v₂, k₂⟩ := res₂
      rw [hm₂] at h
      dsimp only at h
      cases hc : uvmcopy 0x80000000 k₂ 0x80000000 0x80001000 8192 with
      | ok res =>
        rw [hc] at h
        simp at h
      | error msg =>
        rw [hc] at h
        simp only [Bool.and_eq_true, decide_eq_true_eq, Option.isNone_iff_eq_none] at h
        obtain ⟨rfl, ⟨⟨⟨⟨⟨rfl, h0⟩, h1⟩, hn0⟩, hn1⟩, rfl⟩⟩ := h
        exact ⟨k₁, k₂, rfl, hm₂, h0, h1, hn0, hn1, hc⟩

end CopyContract

end Xv6.Kernel
