import Xv6.Kernel.Vm.Walk

/-!
# Mapping and unmapping pages

`mappages` and `uvmunmap` of `vm.c`, against the abstraction `Kmem.lookup`
of a page table as a partial map from page-aligned virtual addresses below
`MAXVA` to leaf entries.

* `lookup_setPte` — a store to the leaf slot `walk` found for `a` changes the
  map at `a` alone (`px_inj`: two page-aligned addresses below `MAXVA` with the
  same three indices are equal);
* `mappages_spec` — from a tree and allocator in `PtInv`, over unmapped pages,
  `mappages` returns `0` or `-1` and keeps `PtInv`; on `0` it maps each page
  `va + k*PGSIZE` to `PA2PTE(pa + k*PGSIZE) | perm | PTE_V` and leaves every
  other page as it was;
* `uvmunmap_spec` — over mapped leaves, `uvmunmap` removes exactly those
  pages, freeing their memory when asked.
-/

namespace Xv6.Kernel

open Xv6.Lib

/-- `*pte = v`. -/
def Kmem.setPte (k : Kmem) (pte : Nat) (v : UInt64) : Kmem := ⟨k.mem.store64 pte v, k.freelist⟩

/-- The loop of `mappages`: map page `a` to `pa` and go on to the next until
`last`. Each pass maps one page, so `size / PGSIZE` passes finish it. -/
def mappagesLoop (pt : Nat) (last perm : UInt64) :
    Nat → Kmem → UInt64 → UInt64 → Except String (Int × Kmem)
  | 0, k, _, _ => .ok (0, k)
  | fuel + 1, k, a, pa => do
    let (pte, k) ← walk k pt a true
    if pte = 0 then return (-1, k)
    if PteValid (k.mem.load64 pte) then throw "mappages: remap"
    let k := k.setPte pte (pa2pte pa ||| perm ||| pteV)
    if a = last then return (0, k)
    mappagesLoop pt last perm fuel k (a + pgsize) (pa + pgsize)

/-- `mappages(pagetable, va, size, pa, perm)`: `0`, or `-1` when `walk` could
not allocate a page-table page. -/
def mappages (k : Kmem) (pt : Nat) (va size pa perm : UInt64) : Except String (Int × Kmem) :=
  if va % pgsize ≠ 0 then .error "mappages: va not aligned"
  else if size % pgsize ≠ 0 then .error "mappages: size not aligned"
  else if size = 0 then .error "mappages: size"
  else mappagesLoop pt (va + size - pgsize) perm (size / pgsize).toNat k va pa

/-- The loop of `uvmunmap`, from page `a`. -/
def uvmunmapLoop (kend pt : Nat) (va npages : UInt64) (doFree : Bool) :
    Nat → Kmem → UInt64 → Except String Kmem
  | 0, k, _ => .ok k
  | fuel + 1, k, a =>
    if a < va + npages * pgsize then do
      let (pte, k) ← walk k pt a false
      if pte = 0 then throw "uvmunmap: walk"
      let e := k.mem.load64 pte
      if ¬PteValid e then throw "uvmunmap: not mapped"
      if pteFlags e = pteV then throw "uvmunmap: not a leaf"
      let k ← if doFree then kfree kend k (pte2pa e).toNat else pure k
      uvmunmapLoop kend pt va npages doFree fuel (k.setPte pte 0) (a + pgsize)
    else .ok k

/-- `uvmunmap(pagetable, va, npages, do_free)`. -/
def uvmunmap (kend : Nat) (k : Kmem) (pt : Nat) (va npages : UInt64) (doFree : Bool) :
    Except String Kmem :=
  if va % pgsize ≠ 0 then .error "uvmunmap: not aligned"
  else uvmunmapLoop kend pt va npages doFree npages.toNat k va

/-! ## One leaf at a time -/

section Leaf

variable {kend r : Nat} {k : Kmem}

@[simp] theorem setPte_freelist (k : Kmem) (pte : Nat) (v : UInt64) :
    (k.setPte pte v).freelist = k.freelist := rfl

/-- Two page-aligned addresses below `MAXVA` with the same indices are equal. -/
theorem px_inj {w a : UInt64} (hw : w.toNat % 4096 = 0) (ha : a.toNat % 4096 = 0)
    (hw' : w < maxva) (ha' : a < maxva) (h₂ : px 2 w = px 2 a) (h₁ : px 1 w = px 1 a)
    (h₀ : px 0 w = px 0 a) : w = a := by
  rw [px_toNat 2 (by omega), px_toNat 2 (by omega)] at h₂
  rw [px_toNat 1 (by omega), px_toNat 1 (by omega)] at h₁
  rw [px_toNat 0 (by omega), px_toNat 0 (by omega)] at h₀
  have hw'' := UInt64.lt_iff_toNat_lt.mp hw'
  have ha'' := UInt64.lt_iff_toNat_lt.mp ha'
  rw [maxva_toNat] at hw'' ha''
  apply UInt64.toNat_inj.mp
  simp only [Nat.reduceMul, Nat.reduceAdd, Nat.reducePow] at h₂ h₁ h₀ hw'' ha''
  omega

/-- A store to a leaf slot keeps the tree's places. -/
theorem nodePage_setPte (hinv : TreeInv k.mem r) {i j : Fin 512} {t : Nat}
    (ht : nodePage k.mem r (.l0 i j) = some t) {l : Nat} (hl : l < 512) (v : UInt64) :
    ∀ a, nodePage (k.setPte (t + 8 * l) v).mem r a = nodePage k.mem r a :=
  nodePage_store_l0 hinv ht hl v

/-- A store to a leaf slot keeps `PtInv`. -/
theorem PtInv.setPte (hpt : PtInv kend k r) {i j : Fin 512} {t : Nat}
    (ht : nodePage k.mem r (.l0 i j) = some t) {l : Nat} (hl : l < 512) (v : UInt64) :
    PtInv kend (k.setPte (t + 8 * l) v) r := by
  have hnode := nodePage_setPte hpt.tree ht hl v
  refine ⟨hpt.tree.congr hnode, hpt.free.of_freelist rfl, fun p hp ⟨a, ha⟩ => ?_⟩
  rw [hnode] at ha
  exact hpt.disj p hp ⟨a, ha⟩

/-- Storing `v` in the leaf slot of page `a` changes the map at `a` alone. -/
theorem lookup_setPte (hinv : TreeInv k.mem r) {a : UInt64} (ha : a < maxva)
    (haa : a.toNat % 4096 = 0) {t : Nat}
    (ht : nodePage k.mem r (.l0 ⟨px 2 a, px_lt 2 a⟩ ⟨px 1 a, px_lt 1 a⟩) = some t) (v : UInt64)
    {w : UInt64} (hw : w < maxva) (hwa : w.toNat % 4096 = 0) :
    (k.setPte (t + 8 * px 0 a) v).lookup r w =
      if w = a then (if PteValid v then some v else none) else k.lookup r w := by
  have hnode := nodePage_setPte hinv ht (px_lt 0 a) v
  rw [lookup_eq_leafAt (hinv.congr hnode) hw, lookup_eq_leafAt hinv hw]
  rw [show (k.setPte (t + 8 * px 0 a) v).mem = k.mem.store64 (t + 8 * px 0 a) v from rfl,
    leafAt_store_l0 hinv ht (px_lt 0 a) v _ _ (px_lt 0 w)]
  by_cases hwa' : w = a
  · subst hwa'
    rw [if_pos ⟨rfl, rfl, rfl⟩, if_pos rfl]
  · rw [if_neg hwa', if_neg]
    rintro ⟨h₂, h₁, h₀⟩
    exact hwa' (px_inj hwa haa hw ha (Fin.mk.inj h₂) (Fin.mk.inj h₁) h₀)

/-- Walks that keep every leaf keep the map. -/
theorem lookup_congr_leaf {k' : Kmem} (hinv : TreeInv k.mem r) (hinv' : TreeInv k'.mem r)
    (hleaf : ∀ i j l, l < 512 → leafAt k'.mem r i j l = leafAt k.mem r i j l) {w : UInt64}
    (hw : w < maxva) : k'.lookup r w = k.lookup r w := by
  rw [lookup_eq_leafAt hinv' hw, lookup_eq_leafAt hinv hw, hleaf _ _ _ (px_lt 0 w)]

/-- The map at `a` is the entry in the leaf slot `walk` finds. -/
theorem lookup_of_node (hinv : TreeInv k.mem r) {a : UInt64} (ha : a < maxva) {t : Nat}
    (ht : nodePage k.mem r (.l0 ⟨px 2 a, px_lt 2 a⟩ ⟨px 1 a, px_lt 1 a⟩) = some t) :
    k.lookup r a = if PteValid (k.mem.load64 (t + 8 * px 0 a))
      then some (k.mem.load64 (t + 8 * px 0 a)) else none := by
  rw [lookup_eq_leafAt hinv ha]
  simp only [leafAt, ht, Option.bind_some, pteAt]
  by_cases hv : PteValid (k.mem.load64 (t + 8 * px 0 a)) <;> simp [hv]

/-- A store to a leaf slot writes inside a page of the tree, so the tree grows
(trivially). -/
theorem Grows.setPte (hinv : TreeInv k.mem r) {i j : Fin 512} {t : Nat}
    (ht : nodePage k.mem r (.l0 i j) = some t) {l : Nat} (hl : l < 512) (v : UInt64) :
    Grows r k (k.setPte (t + 8 * l) v) := by
  have hnode := nodePage_setPte hinv ht hl v
  refine ⟨fun a t' h => (hnode a).trans h, ⟨0, rfl, by simp⟩,
    fun t' ⟨a, ha⟩ => .inl ⟨a, (hnode a).symm.trans ha⟩, fun x hx => ?_⟩
  have htab : IsTable (k.setPte (t + 8 * l) v).mem r t := ⟨_, (hnode _).trans ht⟩
  simp only [Kmem.setPte, Mem.store64]
  exact Mem.write_of_disjoint _ _ (by rcases hx t htab with h | h <;> omega)

end Leaf

/-! ## `mappages` -/

section Mappages

variable {kend r : Nat} {k : Kmem}

/-- What `mappagesLoop` from page `a` (mapped to `pa`) leaves: the invariant,
a grown tree, and `n` pages mapped from `a` on: all of them up to `last` when
it returns `0`, fewer when it returns `-1`. -/
structure MapPost (kend r : Nat) (k : Kmem) (last perm a pa : UInt64) (res : Int × Kmem) : Prop where
  inv : PtInv kend res.2 r
  grows : Grows r k res.2
  pages : ∃ n, (res.1 = 0 ∧ a.toNat + 4096 * n = last.toNat + 4096 ∨
      res.1 = -1 ∧ a.toNat + 4096 * n ≤ last.toNat) ∧
    ∀ w, w < maxva → w.toNat % 4096 = 0 →
      res.2.lookup r w = if a.toNat ≤ w.toNat ∧ w.toNat < a.toNat + 4096 * n
        then some (pa2pte (pa + (w - a)) ||| perm ||| pteV) else k.lookup r w

theorem mappagesLoop_spec {last perm : UInt64} (hlast : last.toNat % 4096 = 0) (hlm : last < maxva) :
    ∀ fuel k a pa, PtInv kend k r → a.toNat % 4096 = 0 → a.toNat ≤ last.toNat →
      (last.toNat - a.toNat) / 4096 < fuel →
      (∀ w : UInt64, w.toNat % 4096 = 0 → a.toNat ≤ w.toNat → w.toNat ≤ last.toNat →
        k.lookup r w = none) →
      ∃ res, mappagesLoop r last perm fuel k a pa = .ok res ∧ MapPost kend r k last perm a pa res
  | 0, _, _, _, _, _, _, hfuel, _ => absurd hfuel (Nat.not_lt_zero _)
  | fuel + 1, k, a, pa, hpt, ha, hal, hfuel, hfree => by
    have hlm' := UInt64.lt_iff_toNat_lt.mp hlm
    rw [maxva_toNat] at hlm'
    have hama : a < maxva := UInt64.lt_iff_toNat_lt.mpr (by rw [maxva_toNat]; omega)
    obtain ⟨⟨pte, k₁⟩, hw, hpt₁, hg₁, hleaf₁, hpte⟩ := walk_alloc hpt hama
    have hsame : ∀ w, w < maxva → k₁.lookup r w = k.lookup r w := fun w hw =>
      lookup_congr_leaf hpt.tree hpt₁.tree hleaf₁ hw
    dsimp only at hpte
    rcases hpte with rfl | ⟨t, ht, rfl⟩
    · -- `walk` found no page-table page and could not allocate one
      refine ⟨(-1, k₁), ?_, hpt₁, hg₁, 0, .inr ⟨rfl, by omega⟩, fun w hw _ => ?_⟩
      · simp only [mappagesLoop, hw, bind, Except.bind, if_true]
        rfl
      · simp only [Nat.mul_zero, Nat.add_zero]
        rw [if_neg (by omega), hsame w hw]
    -- `walk` found the leaf slot; the page was unmapped, so there is no remap
    have hne : t + 8 * px 0 a ≠ 0 := by
      have := hpt₁.tree.pos _ t ht
      omega
    have hnv : ¬PteValid (k₁.mem.load64 (t + 8 * px 0 a)) := by
      intro hv
      have h₁ := lookup_of_node hpt₁.tree hama ht
      rw [if_pos hv, hsame a hama, hfree a ha le_rfl hal] at h₁
      cases h₁
    set e := pa2pte pa ||| perm ||| pteV
    set k₂ := k₁.setPte (t + 8 * px 0 a) e
    have hpt₂ : PtInv kend k₂ r := hpt₁.setPte ht (px_lt 0 a) e
    have hg₂ : Grows r k₁ k₂ := Grows.setPte hpt₁.tree ht (px_lt 0 a) e
    have hlk₂ : ∀ w, w < maxva → w.toNat % 4096 = 0 →
        k₂.lookup r w = if w = a then some e else k.lookup r w := fun w hw hwa => by
      rw [lookup_setPte hpt₁.tree hama ha ht e hw hwa, if_pos (valid_or_pteV _), hsame w hw]
    have hstep : mappagesLoop r last perm (fuel + 1) k a pa =
        if a = last then .ok (0, k₂)
        else mappagesLoop r last perm fuel k₂ (a + pgsize) (pa + pgsize) := by
      simp only [mappagesLoop, hw, bind, Except.bind, hne, if_false, hnv]
      rfl
    rw [hstep]
    by_cases hlast' : a = last
    · -- the last page
      subst hlast'
      refine ⟨(0, k₂), if_pos rfl, hpt₂, hg₁.trans hg₂, 1, .inl ⟨rfl, by omega⟩, fun w hw hwa => ?_⟩
      rw [hlk₂ w hw hwa]
      by_cases hwa' : w = a
      · subst hwa'
        simp [e]
      · have : w.toNat ≠ a.toNat := fun h => hwa' (UInt64.toNat_inj.mp h)
        rw [if_neg hwa', if_neg (by omega)]
    · -- more pages: the rest of the range from the next page
      have hlt : a.toNat < last.toNat := by
        have : a.toNat ≠ last.toNat := fun h => hlast' (UInt64.toNat_inj.mp h)
        omega
      have hnext : (a + pgsize).toNat = a.toNat + 4096 := by
        rw [UInt64.toNat_add, pgsize_toNat]
        omega
      obtain ⟨res, hres, hpost⟩ := mappagesLoop_spec hlast hlm fuel k₂ (a + pgsize) (pa + pgsize)
        hpt₂ (by omega) (by omega) (by omega) (fun w hwa h₁ h₂ => by
          have hw : w < maxva := UInt64.lt_iff_toNat_lt.mpr (by rw [maxva_toNat]; omega)
          have : w ≠ a := fun h => by subst h; omega
          rw [hlk₂ w hw hwa, if_neg this]
          exact hfree w hwa (by omega) h₂)
      obtain ⟨n, hn, hlk⟩ := hpost.pages
      refine ⟨res, by rw [if_neg hlast']; exact hres, hpost.inv, hg₁.trans (hg₂.trans hpost.grows),
        n + 1, by omega, fun w hw hwa => ?_⟩
      rw [hlk w hw hwa, hlk₂ w hw hwa, hnext]
      by_cases hwa' : w = a
      · subst hwa'
        rw [if_neg (by omega), if_pos rfl, if_pos (by omega)]
        simp [e]
      · have : w.toNat ≠ a.toNat := fun h => hwa' (UInt64.toNat_inj.mp h)
        rw [if_neg hwa']
        by_cases hin : a.toNat + 4096 ≤ w.toNat ∧ w.toNat < a.toNat + 4096 + 4096 * n
        · rw [if_pos hin, if_pos (by omega)]
          have hid : pa + pgsize + (w - (a + pgsize)) = pa + (w - a) := by grind
          rw [hid]
        · rw [if_neg hin, if_neg (by omega)]
  
theorem mod_pgsize_eq_zero {x : UInt64} (h : x.toNat % 4096 = 0) : x % pgsize = 0 :=
  UInt64.toNat_inj.mp (by rw [UInt64.toNat_mod, pgsize_toNat, h]; rfl)

/-- `mappages` over unmapped pages `[va, va + size)` runs its loop to the last
page, `va + size - PGSIZE`. -/
theorem mappages_spec (hpt : PtInv kend k r) (va size pa perm : UInt64)
    (hva : va.toNat % 4096 = 0) (hsz : size.toNat % 4096 = 0) (hpos : 0 < size.toNat)
    (hend : va.toNat + size.toNat ≤ maxva.toNat)
    (hfree : ∀ w : UInt64, w.toNat % 4096 = 0 → va.toNat ≤ w.toNat →
      w.toNat < va.toNat + size.toNat → k.lookup r w = none) :
    (va + size - pgsize).toNat = va.toNat + size.toNat - 4096 ∧
      ∃ res, mappages k r va size pa perm = .ok res ∧
        MapPost kend r k (va + size - pgsize) perm va pa res := by
  rw [maxva_toNat] at hend
  have hlast : (va + size - pgsize).toNat = va.toNat + size.toNat - 4096 := by
    have h₁ : (va + size).toNat = va.toNat + size.toNat := by
      rw [UInt64.toNat_add]
      omega
    rw [UInt64.toNat_sub, h₁, pgsize_toNat]
    omega
  have hsize : size ≠ 0 := fun h => by
    subst h
    exact absurd hpos (by decide)
  have hfuel : (size / pgsize).toNat = size.toNat / 4096 := by
    rw [UInt64.toNat_div, pgsize_toNat]
  refine ⟨hlast, ?_⟩
  rw [mappages, if_neg (not_not.mpr (mod_pgsize_eq_zero hva)),
    if_neg (not_not.mpr (mod_pgsize_eq_zero hsz)), if_neg hsize, hfuel]
  exact mappagesLoop_spec (by omega) (UInt64.lt_iff_toNat_lt.mpr (by rw [maxva_toNat]; omega))
    _ k va pa hpt hva (by omega) (by omega) fun w hwa h₁ h₂ => hfree w hwa h₁ (by omega)

end Mappages

/-! ## `uvmunmap` -/

section Unmap

variable {kend r : Nat} {k : Kmem}

/-- Only addresses below `MAXVA` are mapped. -/
theorem lt_maxva_of_lookup {w e : UInt64} (h : k.lookup r w = some e) : w < maxva := by
  by_contra hw
  rw [Kmem.lookup, walk, if_pos (UInt64.not_lt.mp hw)] at h
  cases h

/-- A mapped page: `walk` without allocation finds its slot, and the slot holds
the entry. -/
theorem walk_of_lookup (hinv : TreeInv k.mem r) {w e : UInt64} (he : k.lookup r w = some e) :
    ∃ t, nodePage k.mem r (.l0 ⟨px 2 w, px_lt 2 w⟩ ⟨px 1 w, px_lt 1 w⟩) = some t ∧
      walk k r w false = .ok (t + 8 * px 0 w, k) ∧ k.mem.load64 (t + 8 * px 0 w) = e ∧
      PteValid e := by
  have hw := lt_maxva_of_lookup he
  cases ht : nodePage k.mem r (.l0 ⟨px 2 w, px_lt 2 w⟩ ⟨px 1 w, px_lt 1 w⟩) with
  | none =>
    rw [lookup_eq_leafAt hinv hw, leafAt, ht] at he
    cases he
  | some t =>
    rw [lookup_of_node hinv hw ht] at he
    by_cases hv : PteValid (k.mem.load64 (t + 8 * px 0 w))
    · rw [if_pos hv] at he
      have he' : k.mem.load64 (t + 8 * px 0 w) = e := Option.some.inj he
      subst he'
      refine ⟨t, rfl, ?_, rfl, hv⟩
      rw [walk, if_neg (UInt64.not_le.mpr hw), walkLoop_false, ht]
      rfl
    · rw [if_neg hv] at he
      cases he

/-- `kfree` of a page that is no page of the tree keeps every page of the tree. -/
theorem kfree_pageAgree (hinv : TreeInv k.mem r) {p : Nat} {k' : Kmem} (hk : kfree kend k p = .ok k')
    (htab : ¬IsTable k.mem r p) : ∀ a t, nodePage k.mem r a = some t → PageAgree k.mem k'.mem t := by
  obtain ⟨hal, -, -, -, hmem⟩ := kfree_ok hk
  intro a t ht x hx₁ hx₂
  have hne : p ≠ t := fun h => htab ⟨a, h ▸ ht⟩
  have := apart_of_aligned hal (hinv.page_aligned ht) hne
  exact hmem x (by omega)

/-- `kfree` of a page that is not free and no page of the tree keeps `PtInv`,
the tree and every leaf. -/
theorem PtInv.kfree (hpt : PtInv kend k r) {p : Nat} {k' : Kmem} (hk : kfree kend k p = .ok k')
    (hfree : p ∉ k.freelist) (htab : ¬IsTable k.mem r p) :
    PtInv kend k' r ∧ (∀ a, nodePage k'.mem r a = nodePage k.mem r a) ∧
      ∀ i j l, l < 512 → leafAt k'.mem r i j l = leafAt k.mem r i j l := by
  obtain ⟨-, -, -, hl, -⟩ := kfree_ok hk
  obtain ⟨hnode, hleaf⟩ : (∀ a, nodePage k'.mem r a = nodePage k.mem r a) ∧
      ∀ i j l, l < 512 → leafAt k'.mem r i j l = leafAt k.mem r i j l :=
    congr_of_agree (kfree_pageAgree hpt.tree hk htab)
  refine ⟨⟨hpt.tree.congr hnode, hpt.free.kfree hk hfree, fun q hq ⟨a, ha⟩ => ?_⟩, hnode, hleaf⟩
  rw [hnode] at ha
  rw [hl] at hq
  rcases List.mem_cons.mp hq with rfl | hq
  · exact htab ⟨a, ha⟩
  · exact hpt.disj q hq ⟨a, ha⟩

theorem kfree_of_range {p : Nat} (hal : p % 4096 = 0) (hlo : kend ≤ p) (hhi : p < phystop) (k : Kmem) :
    ∃ k', kfree kend k p = .ok k' :=
  ⟨_, by rw [kfree, if_neg (by omega)]⟩

/-- Page `w` can be unmapped: a leaf maps it, and when it is to be freed, its
page can go back to the free list (inside `[end, PHYSTOP)`, not free, and no
page of the tree). -/
def Unmappable (kend : Nat) (k : Kmem) (r : Nat) (doFree : Bool) (w : UInt64) : Prop :=
  ∃ e, k.lookup r w = some e ∧ pteFlags e ≠ pteV ∧
    (doFree → kend ≤ (pte2pa e).toNat ∧ (pte2pa e).toNat < phystop ∧
      (pte2pa e).toNat ∉ k.freelist ∧ ¬IsTable k.mem r (pte2pa e).toNat)

/-- From `m` to `m'` every entry of the tree's pages is kept, but that entries
of level-0 pages may have been cleared. -/
def EntriesCleared (m m' : Mem) (r : Nat) : Prop :=
  ∀ a t, nodePage m r a = some t → ∀ l < 512,
    pteAt m' t l = pteAt m t l ∨ (∃ i j, a = .l0 i j) ∧ pteAt m' t l = 0

section Cleared

variable {m m₁ m₂ : Mem} {r : Nat}

theorem EntriesCleared.refl (m : Mem) (r : Nat) : EntriesCleared m m r :=
  fun _ _ _ _ _ => .inl rfl

theorem EntriesCleared.trans (h₁ : EntriesCleared m m₁ r)
    (hn : ∀ a, nodePage m₁ r a = nodePage m r a) (h₂ : EntriesCleared m₁ m₂ r) :
    EntriesCleared m m₂ r := fun a t ht l hl => by
  rcases h₂ a t (by rw [hn]; exact ht) l hl with h | h
  · rw [h]
    exact h₁ a t ht l hl
  · exact .inr h

theorem entriesCleared_of_agree (h : ∀ a t, nodePage m r a = some t → PageAgree m m₁ t) :
    EntriesCleared m m₁ r := fun a t ht _ hl => .inl (pteAt_congr hl (h a t ht))

/-- Clearing a leaf slot clears one entry of a level-0 page. -/
theorem entriesCleared_store_l0 (hinv : TreeInv m r) {i j : Fin 512} {t : Nat}
    (ht : nodePage m r (.l0 i j) = some t) {l : Nat} (hl : l < 512) :
    EntriesCleared m (m.store64 (t + 8 * l) 0) r := fun a t' ht' l' hl' => by
  by_cases htt : t' = t
  · subst htt
    have ha : a = .l0 i j := hinv.inj a _ t' ht' ht
    by_cases hll : l' = l
    · subst hll
      exact .inr ⟨⟨i, j, ha⟩, pteAt_store64_self _ _ _ _⟩
    · exact .inl (pteAt_store64_of_ne _ _ (Ne.symm hll))
  · exact .inl (pteAt_congr hl' (pageAgree_store64 0 (hinv.page_aligned ht)
      (hinv.page_aligned ht') (Ne.symm htt) hl))

end Cleared

/-- What `uvmunmapLoop` from page `a` to `stop` leaves: the invariant, the
same pages of the tree, no page of `[a, stop)` mapped and every other page as
it was, the pages of `[a, stop)` on the free list when they were to be
freed, and no entry of the tree changed but leaves cleared. -/
structure UnmapPost (kend r : Nat) (k : Kmem) (doFree : Bool) (a : UInt64) (stop : Nat) (k' : Kmem) :
    Prop where
  inv : PtInv kend k' r
  nodes : ∀ c, nodePage k'.mem r c = nodePage k.mem r c
  map : ∀ w, w < maxva → w.toNat % 4096 = 0 →
    k'.lookup r w = if a.toNat ≤ w.toNat ∧ w.toNat < stop then none else k.lookup r w
  freed : ∀ p, p ∈ k'.freelist ↔ p ∈ k.freelist ∨ doFree ∧ ∃ w e, w.toNat % 4096 = 0 ∧
    a.toNat ≤ w.toNat ∧ w.toNat < stop ∧ k.lookup r w = some e ∧ p = (pte2pa e).toNat
  cleared : EntriesCleared k.mem k'.mem r

/-- Unmapping nothing. -/
theorem UnmapPost.self (hpt : PtInv kend k r) (doFree : Bool) (a : UInt64) :
    UnmapPost kend r k doFree a a.toNat k :=
  ⟨hpt, fun _ => rfl, fun w _ _ => by rw [if_neg (by omega)],
    fun p => ⟨.inl, fun h => h.elim id fun ⟨_, _, _, _, h₁, h₂, _⟩ => absurd h₂ (by omega)⟩,
    EntriesCleared.refl _ _⟩

theorem uvmunmapLoop_spec {va npages : UInt64} {doFree : Bool} {stop : Nat}
    (hstop : (va + npages * pgsize).toNat = stop) (hsal : stop % 4096 = 0) :
    ∀ fuel k a, PtInv kend k r → a.toNat % 4096 = 0 → a.toNat ≤ stop → (stop - a.toNat) / 4096 ≤ fuel →
      (∀ w : UInt64, w.toNat % 4096 = 0 → a.toNat ≤ w.toNat → w.toNat < stop →
        Unmappable kend k r doFree w) →
      (doFree → ∀ w w' e e', w.toNat % 4096 = 0 → w'.toNat % 4096 = 0 →
        a.toNat ≤ w.toNat → w.toNat < stop → a.toNat ≤ w'.toNat →
        w'.toNat < stop → k.lookup r w = some e → k.lookup r w' = some e' →
        pte2pa e = pte2pa e' → w = w') →
      ∃ k', uvmunmapLoop kend r va npages doFree fuel k a = .ok k' ∧
        UnmapPost kend r k doFree a stop k'
  | 0, k, a, hpt, ha, has, hfuel, _, _ => by
    -- no page is left: `a = stop`
    refine ⟨k, rfl, hpt, fun _ => rfl, fun w _ _ => by rw [if_neg (by omega)], fun p => ?_,
      EntriesCleared.refl _ _⟩
    refine ⟨.inl, fun h => h.elim id fun ⟨_, _, _, _, h₁, h₂, _⟩ => absurd h₂ (by omega)⟩
  | fuel + 1, k, a, hpt, ha, has, hfuel, hmapped, hdist => by
    by_cases hlt : a.toNat < stop
    swap
    · -- the loop test fails: nothing more is unmapped
      have hnot : ¬a < va + npages * pgsize := fun h => hlt (hstop ▸ UInt64.lt_iff_toNat_lt.mp h)
      refine ⟨k, by rw [uvmunmapLoop, if_neg hnot], hpt, fun _ => rfl,
        fun w _ _ => by rw [if_neg (by omega)],
        fun p => ⟨.inl, fun h => h.elim id fun ⟨_, _, _, _, h₁, h₂, _⟩ => absurd h₂ (by omega)⟩,
        EntriesCleared.refl _ _⟩
    have hlt' : a < va + npages * pgsize := UInt64.lt_iff_toNat_lt.mpr (hstop ▸ hlt)
    obtain ⟨e, he, hleaf, hfreeable⟩ := hmapped a ha le_rfl hlt
    have hama := lt_maxva_of_lookup he
    obtain ⟨t, ht, hw, hload, hv⟩ := walk_of_lookup hpt.tree he
    have hne : t + 8 * px 0 a ≠ 0 := by
      have := hpt.tree.pos _ t ht
      omega
    -- the page after `kfree`, when asked for
    obtain ⟨k₁, hk₁, hpt₁, hnode₁, hleaf₁, hfl₁, hcl₁⟩ : ∃ k₁, (if doFree then
        kfree kend k (pte2pa e).toNat else pure k) = .ok k₁ ∧ PtInv kend k₁ r ∧
        (∀ a, nodePage k₁.mem r a = nodePage k.mem r a) ∧
        (∀ i j l, l < 512 → leafAt k₁.mem r i j l = leafAt k.mem r i j l) ∧
        k₁.freelist = (if doFree then [(pte2pa e).toNat] else []) ++ k.freelist ∧
        EntriesCleared k.mem k₁.mem r := by
      cases doFree with
      | false => exact ⟨k, rfl, hpt, fun _ => rfl, fun _ _ _ _ => rfl, rfl, EntriesCleared.refl _ _⟩
      | true =>
        obtain ⟨hlo, hhi, hnf, htab⟩ := hfreeable rfl
        obtain ⟨k₁, hk⟩ := kfree_of_range (pte2pa_aligned e) hlo hhi k
        obtain ⟨hpt₁, hnode₁, hleaf₁⟩ := hpt.kfree hk hnf htab
        exact ⟨k₁, by rw [if_pos rfl]; exact hk, hpt₁, hnode₁, hleaf₁, (kfree_ok hk).2.2.2.1,
          entriesCleared_of_agree (kfree_pageAgree hpt.tree hk htab)⟩
    have ht₁ : nodePage k₁.mem r (.l0 ⟨px 2 a, px_lt 2 a⟩ ⟨px 1 a, px_lt 1 a⟩) = some t := by
      rw [hnode₁]
      exact ht
    set k₂ := k₁.setPte (t + 8 * px 0 a) 0
    have hpt₂ : PtInv kend k₂ r := hpt₁.setPte ht₁ (px_lt 0 a) 0
    have hlk₂ : ∀ w, w < maxva → w.toNat % 4096 = 0 →
        k₂.lookup r w = if w = a then none else k.lookup r w := fun w hw hwa => by
      rw [lookup_setPte hpt₁.tree hama ha ht₁ 0 hw hwa, if_neg not_valid_zero,
        lookup_congr_leaf hpt.tree hpt₁.tree hleaf₁ hw]
    have hn : ∀ c, nodePage k₂.mem r c = nodePage k.mem r c := fun c =>
      (nodePage_setPte hpt₁.tree ht₁ (px_lt 0 a) 0 c).trans (hnode₁ c)
    have htab₂ : ∀ q, IsTable k₂.mem r q ↔ IsTable k.mem r q := fun q =>
      ⟨fun ⟨c, hc⟩ => ⟨c, (hn c) ▸ hc⟩, fun ⟨c, hc⟩ => ⟨c, (hn c).symm ▸ hc⟩⟩
    have hnext : (a + pgsize).toNat = a.toNat + 4096 := by
      rw [UInt64.toNat_add, pgsize_toNat]
      have := UInt64.lt_iff_toNat_lt.mp hama
      rw [maxva_toNat] at this
      omega
    -- the rest of the range, from the next page, is as it was
    have hlk : ∀ w : UInt64, w.toNat % 4096 = 0 → a.toNat + 4096 ≤ w.toNat → w.toNat < stop →
        k₂.lookup r w = k.lookup r w := fun w hwa h₁ h₂ => by
      obtain ⟨e', he', -⟩ := hmapped w hwa (by omega) h₂
      rw [hlk₂ w (lt_maxva_of_lookup he') hwa, if_neg (fun h => by subst h; omega)]
    have hstep : uvmunmapLoop kend r va npages doFree (fuel + 1) k a =
        (if doFree then kfree kend k (pte2pa e).toNat else pure k) >>= fun k =>
          uvmunmapLoop kend r va npages doFree fuel (k.setPte (t + 8 * px 0 a) 0) (a + pgsize) := by
      simp only [uvmunmapLoop, if_pos hlt', hw, bind, Except.bind, hne, if_false, hload, hv,
        not_true_eq_false, hleaf]
      cases doFree <;> simp only [Bool.false_eq_true, if_false, if_true]
    obtain ⟨k', hk', hpost⟩ := uvmunmapLoop_spec hstop hsal fuel k₂ (a + pgsize) hpt₂
      (by rw [hnext]; omega) (by rw [hnext]; omega) (by rw [hnext]; omega)
      (fun w hwa h₁ h₂ => by
        rw [hnext] at h₁
        obtain ⟨e', he', hleaf', hfree'⟩ := hmapped w hwa (by omega) h₂
        refine ⟨e', (hlk w hwa h₁ h₂).trans he', hleaf', fun hd => ?_⟩
        obtain ⟨hlo, hhi, hnf, htab⟩ := hfree' hd
        refine ⟨hlo, hhi, ?_, fun h => htab ((htab₂ _).mp h)⟩
        rw [show k₂.freelist = k₁.freelist from rfl, hfl₁, if_pos hd, List.singleton_append]
        intro hmem
        rcases List.mem_cons.mp hmem with h | h
        · have := hdist hd w a e' e hwa ha (by omega) h₂ le_rfl hlt he' he (UInt64.toNat_inj.mp h)
          subst this
          omega
        · exact hnf h)
      (fun hd w w' e₁ e₂ hwa hwa' h₁ h₂ h₃ h₄ he₁ he₂ hpa => by
        rw [hnext] at h₁ h₃
        rw [hlk w hwa h₁ h₂] at he₁
        rw [hlk w' hwa' h₃ h₄] at he₂
        exact hdist hd w w' e₁ e₂ hwa hwa' (by omega) h₂ (by omega) h₄ he₁ he₂ hpa)
    have hrun : uvmunmapLoop kend r va npages doFree (fuel + 1) k a = .ok k' := by
      rw [hstep, hk₁]
      simp only [bind, Except.bind]
      exact hk'
    have hcl₂ : EntriesCleared k.mem k₂.mem r :=
      hcl₁.trans hnode₁ (entriesCleared_store_l0 hpt₁.tree ht₁ (px_lt 0 a))
    refine ⟨k', hrun, hpost.inv, fun c => (hpost.nodes c).trans (hn c), fun w hw hwa => ?_,
      fun p => ?_, hcl₂.trans hn hpost.cleared⟩
    · rw [hpost.map w hw hwa, hlk₂ w hw hwa, hnext]
      by_cases hwa' : w = a
      · subst hwa'
        rw [if_neg (by omega), if_pos rfl, if_pos ⟨le_rfl, hlt⟩]
      · have : w.toNat ≠ a.toNat := fun h => hwa' (UInt64.toNat_inj.mp h)
        rw [if_neg hwa']
        by_cases hin : a.toNat + 4096 ≤ w.toNat ∧ w.toNat < stop
        · rw [if_pos hin, if_pos (by omega)]
        · rw [if_neg hin, if_neg (by omega)]
    · rw [hpost.freed p, show k₂.freelist = k₁.freelist from rfl, hfl₁, hnext]
      cases doFree with
      | false => simp
      | true =>
        simp only [if_true, List.singleton_append, List.mem_cons, true_and]
        constructor
        · rintro ((hp | h) | ⟨w, e', hwa, h₁, h₂, he', hp⟩)
          · exact .inr ⟨a, e, ha, le_rfl, hlt, he, hp⟩
          · exact .inl h
          · exact .inr ⟨w, e', hwa, by omega, h₂, (hlk w hwa h₁ h₂) ▸ he', hp⟩
        · rintro (h | ⟨w, e', hwa, h₁, h₂, he', hp⟩)
          · exact .inl (.inr h)
          · by_cases hwa' : w = a
            · subst hwa'
              rw [he] at he'
              cases he'
              exact .inl (.inl hp)
            · have : w.toNat ≠ a.toNat := fun h => hwa' (UInt64.toNat_inj.mp h)
              exact .inr ⟨w, e', hwa, by omega, h₂, (hlk w hwa (by omega) h₂).trans he', hp⟩

/-- `uvmunmap` over pages mapped by leaves (whose pages, when they are to be
freed, can go back to the free list and are distinct) runs its loop over all
of `[va, va + npages*PGSIZE)`. -/
theorem uvmunmap_spec (hpt : PtInv kend k r) {va npages : UInt64} (doFree : Bool)
    (hva : va.toNat % 4096 = 0) (hend : va.toNat + 4096 * npages.toNat ≤ maxva.toNat)
    (hmapped : ∀ w : UInt64, w.toNat % 4096 = 0 → va.toNat ≤ w.toNat →
      w.toNat < va.toNat + 4096 * npages.toNat → Unmappable kend k r doFree w)
    (hdist : doFree → ∀ w w' e e', w.toNat % 4096 = 0 → w'.toNat % 4096 = 0 →
      va.toNat ≤ w.toNat → w.toNat < va.toNat + 4096 * npages.toNat → va.toNat ≤ w'.toNat →
      w'.toNat < va.toNat + 4096 * npages.toNat → k.lookup r w = some e →
      k.lookup r w' = some e' → pte2pa e = pte2pa e' → w = w') :
    ∃ k', uvmunmap kend k r va npages doFree = .ok k' ∧
      UnmapPost kend r k doFree va (va.toNat + 4096 * npages.toNat) k' := by
  rw [maxva_toNat] at hend
  have hstop : (va + npages * pgsize).toNat = va.toNat + 4096 * npages.toNat := by
    rw [UInt64.toNat_add, UInt64.toNat_mul, pgsize_toNat]
    omega
  rw [uvmunmap, if_neg (not_not.mpr (mod_pgsize_eq_zero hva))]
  exact uvmunmapLoop_spec hstop (by omega) _ k va hpt hva (by omega) (by omega) hmapped hdist

end Unmap

/-! ## An empty table

`uvmcreate` gives a zeroed root page: a tree with no place but the root, and
an empty map. -/

section Empty

variable {kend r : Nat} {m : Mem}

theorem nodePage_of_zero (hzero : ∀ x, r ≤ x → x < r + 4096 → m x = 0) :
    ∀ a, nodePage m r a = if a = .l2 then some r else none
  | .l2 => rfl
  | .l1 i => by
    simp only [nodePage, follow, pteAt_of_zero i.isLt hzero, not_valid_zero, if_false]
    rfl
  | .l0 i j => by
    simp only [nodePage, follow, pteAt_of_zero i.isLt hzero, not_valid_zero, if_false,
      Option.bind_none]
    rfl

/-- A zeroed, aligned, nonzero root page that is not free is an empty tree in `PtInv`. -/
theorem PtInv.of_zero {fl : List Nat} (hfree : FreeInv kend ⟨m, fl⟩) (hr : r % 4096 = 0)
    (hr0 : 0 < r) (hnf : r ∉ fl) (hzero : ∀ x, r ≤ x → x < r + 4096 → m x = 0) :
    PtInv kend ⟨m, fl⟩ r := by
  have hroot : ∀ a t, nodePage m r a = some t → a = .l2 ∧ t = r := fun a t h => by
    rw [nodePage_of_zero hzero] at h
    split_ifs at h with ha
    cases h
    exact ⟨ha, rfl⟩
  refine ⟨⟨hr, fun a t h => ?_, fun a b t ha hb => ?_⟩, hfree, fun p hp ⟨a, ha⟩ => ?_⟩
  · rw [(hroot a t h).2]
    exact hr0
  · rw [(hroot a t ha).1, (hroot b t hb).1]
  · rw [(hroot a p ha).2] at hp
    exact hnf hp

theorem lookup_of_zero (hzero : ∀ x, r ≤ x → x < r + 4096 → m x = 0) (fl : List Nat) (w : UInt64) :
    Kmem.lookup ⟨m, fl⟩ r w = none := by
  unfold Kmem.lookup walk
  split_ifs
  · rfl
  · rw [walkLoop_false, nodePage_of_zero hzero, if_neg (by simp)]
    simp

end Empty

/-! ## The page table as a map -/

section Refines

variable {kend r : Nat} {k : Kmem}

/-- The entry `mappages` stores decodes to its page and flags. -/
theorem decode_mk {x perm : UInt64} (hx : x.toNat % 4096 = 0) (hperm : perm.toNat < 1024) :
    pte2pa (pa2pte x ||| perm ||| pteV) = x ∧ pteFlags (pa2pte x ||| perm ||| pteV) = perm ||| pteV := by
  have hf : (perm ||| pteV).toNat < 1024 := by
    rw [UInt64.toNat_or]
    exact Nat.or_lt_two_pow (n := 10) hperm (by decide)
  rw [UInt64.or_assoc]
  exact ⟨pte2pa_mk hx hf, pteFlags_mk hf⟩

theorem pagetable_refines_map (hpt : PtInv kend k r) :
    (∀ va size pa perm : UInt64, va.toNat % 4096 = 0 → size.toNat % 4096 = 0 → 0 < size.toNat →
      va.toNat + size.toNat ≤ maxva.toNat → pa.toNat % 4096 = 0 → perm.toNat < 1024 →
      (∀ w : UInt64, w.toNat % 4096 = 0 → va.toNat ≤ w.toNat →
        w.toNat < va.toNat + size.toNat → k.lookup r w = none) →
      ∃ v k', mappages k r va size pa perm = .ok (v, k') ∧ PtInv kend k' r ∧
        (v = 0 → ∀ w : UInt64, w < maxva → w.toNat % 4096 = 0 →
          k'.lookup r w = if va.toNat ≤ w.toNat ∧ w.toNat < va.toNat + size.toNat
            then some (pa2pte (pa + (w - va)) ||| perm ||| pteV) else k.lookup r w) ∧
        ∀ w : UInt64, w.toNat % 4096 = 0 →
          pte2pa (pa2pte (pa + (w - va)) ||| perm ||| pteV) = pa + (w - va) ∧
          pteFlags (pa2pte (pa + (w - va)) ||| perm ||| pteV) = perm ||| pteV) ∧
    (∀ (va npages : UInt64) (doFree : Bool), va.toNat % 4096 = 0 →
      va.toNat + 4096 * npages.toNat ≤ maxva.toNat →
      (∀ w : UInt64, w.toNat % 4096 = 0 → va.toNat ≤ w.toNat →
        w.toNat < va.toNat + 4096 * npages.toNat → Unmappable kend k r doFree w) →
      (doFree → ∀ w w' e e', w.toNat % 4096 = 0 → w'.toNat % 4096 = 0 →
        va.toNat ≤ w.toNat → w.toNat < va.toNat + 4096 * npages.toNat → va.toNat ≤ w'.toNat →
        w'.toNat < va.toNat + 4096 * npages.toNat → k.lookup r w = some e →
        k.lookup r w' = some e' → pte2pa e = pte2pa e' → w = w') →
      ∃ k', uvmunmap kend k r va npages doFree = .ok k' ∧ PtInv kend k' r ∧
        ∀ w : UInt64, w < maxva → w.toNat % 4096 = 0 →
          k'.lookup r w = if va.toNat ≤ w.toNat ∧ w.toNat < va.toNat + 4096 * npages.toNat
            then none else k.lookup r w) := by
  constructor
  · intro va size pa perm hva hsz hpos hend hpa hperm hfree
    obtain ⟨hlast, ⟨v, k'⟩, hres, hpost⟩ := mappages_spec hpt va size pa perm hva hsz hpos hend hfree
    refine ⟨v, k', hres, hpost.inv, fun hv w hw hwa => ?_, fun w hwa => decode_mk ?_ hperm⟩
    · -- on `0` the loop mapped every page up to the last one
      obtain ⟨n, hn, hlk⟩ := hpost.pages
      have hn' : va.toNat + 4096 * n = va.toNat + size.toNat := by
        dsimp only at hn
        rcases hn with ⟨-, hn⟩ | ⟨hv', -⟩
        · omega
        · rw [hv] at hv'
          cases hv'
      rw [hlk w hw hwa, hn']
    · rw [UInt64.toNat_add, UInt64.toNat_sub]
      omega
  · intro va npages doFree hva hend hmapped hdist
    obtain ⟨k', hres, hpost⟩ := uvmunmap_spec hpt doFree hva hend hmapped hdist
    exact ⟨k', hres, hpost.inv, hpost.map⟩

/-- Below one page, the one page-aligned address is `0`. -/
theorem eq_zero_of_aligned_lt {w : UInt64} (hwa : w.toNat % 4096 = 0) (hw : w.toNat < 4096) :
    w = 0 :=
  UInt64.toNat_inj.mp (by rw [UInt64.toNat_zero]; omega)

/-- A fresh table at `KERNBASE`, two free pages: mapping one page there
succeeds and maps it, and unmapping it again leaves a table in `PtInv` that
maps nothing. -/
theorem pagetable_refines_map_empty :
    PtInv 0x80000000 ⟨fun _ => 0, [0x80001000, 0x80002000]⟩ 0x80000000 ∧
      ∃ k', mappages ⟨fun _ => 0, [0x80001000, 0x80002000]⟩ 0x80000000 0 4096 0x80003000
        (pteR ||| pteU) = .ok (0, k') ∧ PtInv 0x80000000 k' 0x80000000 ∧
        k'.lookup 0x80000000 0 = some (pa2pte 0x80003000 ||| (pteR ||| pteU) ||| pteV) ∧
        ∃ k'', uvmunmap 0x80000000 k' 0x80000000 0 1 false = .ok k'' ∧
          PtInv 0x80000000 k'' 0x80000000 ∧ ∀ w, w < maxva → w.toNat % 4096 = 0 →
            k''.lookup 0x80000000 w = none := by
  have hzero : ∀ x, 0x80000000 ≤ x → x < 0x80000000 + 4096 → (fun _ => (0 : UInt8)) x = 0 :=
    fun _ _ _ => rfl
  have hpt : PtInv 0x80000000 ⟨fun _ => 0, [0x80001000, 0x80002000]⟩ 0x80000000 :=
    PtInv.of_zero ⟨by decide, by decide, by decide, by decide⟩ (by decide) (by decide) (by decide)
      hzero
  obtain ⟨v, k', hres, hpt', hlk, -⟩ := (pagetable_refines_map hpt).1 0 4096 0x80003000 (pteR ||| pteU)
    (by decide) (by decide) (by decide) (by decide) (by decide) (by decide)
    fun w _ _ _ => lookup_of_zero hzero _ w
  -- both page-table pages are there to take, so the call returns `0`
  have hv : (match mappages ⟨fun _ => 0, [0x80001000, 0x80002000]⟩ 0x80000000 0 4096 0x80003000
      (pteR ||| pteU) with
      | .ok (v, _) => v | .error _ => 1) = 0 := by decide +kernel
  rw [hres] at hv
  dsimp only at hv
  subst hv
  have hlk' := hlk rfl
  have h0 : k'.lookup 0x80000000 0 = some (pa2pte 0x80003000 ||| (pteR ||| pteU) ||| pteV) := by
    rw [hlk' 0 (by decide) (by decide), if_pos (by decide)]
    rfl
  -- the page just mapped is a leaf, so `uvmunmap` takes it back
  obtain ⟨k'', hres', hpt'', hlk''⟩ := (pagetable_refines_map hpt').2 0 1 false (by decide)
    (by decide) (fun w hwa _ hw => by
      obtain rfl := eq_zero_of_aligned_lt hwa (by simpa using hw)
      exact ⟨_, h0, by decide, fun h => absurd h Bool.false_ne_true⟩)
    (fun h => absurd h Bool.false_ne_true)
  refine ⟨hpt, k', hres, hpt', h0, k'', hres', hpt'', fun w hw hwa => ?_⟩
  rw [hlk'' w hw hwa]
  split_ifs with hin
  · rfl
  · have hin' : ¬((0 : UInt64).toNat ≤ w.toNat ∧ w.toNat < (0 : UInt64).toNat + (4096 : UInt64).toNat) :=
      fun h => hin (by simpa using h)
    rw [hlk' w hw hwa, if_neg hin', lookup_of_zero hzero]

/-- `mappages` does not check `pa`: mapping page `0` to the unaligned address
`1` succeeds, and the page is sent to physical page `0`. -/
theorem mappages_unaligned_pa :
    ∃ k', mappages ⟨fun _ => 0, [0x80001000, 0x80002000]⟩ 0x80000000 0 4096 1 pteR = .ok (0, k') ∧
      k'.lookup 0x80000000 0 = some (pa2pte 1 ||| pteR ||| pteV) ∧
      pte2pa (pa2pte 1 ||| pteR ||| pteV) = 0 := by
  have hpt : PtInv 0x80000000 ⟨fun _ => 0, [0x80001000, 0x80002000]⟩ 0x80000000 :=
    PtInv.of_zero ⟨by decide, by decide, by decide, by decide⟩ (by decide) (by decide) (by decide)
      fun _ _ _ => rfl
  obtain ⟨hlast, ⟨v, k'⟩, hres, hpost⟩ := mappages_spec hpt 0 4096 1 pteR (by decide) (by decide) (by decide) (by decide)
    fun w _ _ _ => lookup_of_zero (fun _ _ _ => rfl) _ w
  -- both page-table pages are there to take, so the call returns `0`
  have hv : (match mappages ⟨fun _ => 0, [0x80001000, 0x80002000]⟩ 0x80000000 0 4096 1 pteR with
      | .ok (v, _) => v | .error _ => 1) = 0 := by decide +kernel
  rw [hres] at hv
  dsimp only at hv
  subst hv
  obtain ⟨n, hn, hlk⟩ := hpost.pages
  have hn1 : n = 1 := by
    rcases hn with ⟨-, hn⟩ | ⟨h, -⟩
    · rw [hlast] at hn
      have h₀ : (0 : UInt64).toNat = 0 := rfl
      have h₁ : (4096 : UInt64).toNat = 4096 := rfl
      omega
    · cases h
  subst hn1
  refine ⟨k', hres, ?_, by decide⟩
  rw [hlk 0 (by decide) (by decide), if_pos (by decide)]
  rfl

end Refines

/-! ## A table that maps one user page

The page tables the witnesses of the next modules run on: `mappages` of one
page into an empty table. -/

section OnePage

variable {kend r : Nat} {k : Kmem}

/-- One page mapped into a table that maps nothing, when `mappages` returns
`0`: the table maps that page alone, to `pa` with `perm`; its pages are the
old ones and pages that were free; no byte outside them has changed. -/
theorem mappages_one_page (hpt : PtInv kend k r) (hempty : ∀ w, k.lookup r w = none)
    {va pa perm : UInt64} (hva : va.toNat % 4096 = 0) (hend : va.toNat + 4096 ≤ maxva.toNat)
    {k' : Kmem} (hres : mappages k r va 4096 pa perm = .ok (0, k')) :
    PtInv kend k' r ∧
      (∀ w, w < maxva → w.toNat % 4096 = 0 →
        k'.lookup r w = if w = va then some (pa2pte pa ||| perm ||| pteV) else none) ∧
      (∀ t, IsTable k'.mem r t → IsTable k.mem r t ∨ t ∈ k.freelist) ∧
      ∀ x, OutsideTables k'.mem r x → k'.mem x = k.mem x := by
  obtain ⟨hlast, res, hres', hpost⟩ :=
    mappages_spec hpt va 4096 pa perm hva (by decide) (by decide) hend fun w _ _ _ => hempty w
  rw [hres] at hres'
  cases hres'
  -- the loop returned `0`, so it mapped the one page
  obtain ⟨n, hn, hlk⟩ := hpost.pages
  have h4096 : (4096 : UInt64).toNat = 4096 := rfl
  have hn1 : n = 1 := by
    rcases hn with ⟨-, hn⟩ | ⟨h, -⟩
    · rw [hlast, h4096] at hn
      omega
    · cases h
  subst hn1
  refine ⟨hpost.inv, fun w hw hwa => ?_, hpost.grows.fresh, hpost.grows.outside⟩
  rw [hlk w hw hwa]
  by_cases hwv : w = va
  · subst hwv
    rw [if_pos ⟨le_rfl, by omega⟩, if_pos rfl, UInt64.sub_self, UInt64.add_zero]
  · -- two aligned addresses less than a page apart are equal
    have hout : ¬(va.toNat ≤ w.toNat ∧ w.toNat < va.toNat + 4096 * 1) := fun ⟨h₁, h₂⟩ =>
      hwv (UInt64.toNat_inj.mp (by omega))
    rw [if_neg hout, if_neg hwv, hempty]

/-- Physical memory with the string `"hi"` at the start of page `0x80003000`,
and zero elsewhere. -/
def hiMem : Mem := fun x => if x = 0x80003000 then 104 else if x = 0x80003001 then 105 else 0

/-- `hiMem` with an empty root at `KERNBASE` and two free pages. -/
def kmemHi : Kmem := ⟨hiMem, [0x80001000, 0x80002000]⟩

theorem hiMem_root : ∀ x, 0x80000000 ≤ x → x < 0x80000000 + 4096 → hiMem x = 0 :=
  fun x _ h₂ => by
    unfold hiMem
    rw [if_neg (by omega), if_neg (by omega)]

theorem ptInv_kmemHi : PtInv 0x80000000 kmemHi 0x80000000 :=
  PtInv.of_zero ⟨by decide, by decide, by decide, by decide⟩ (by decide) (by decide) (by decide)
    hiMem_root

/-- Physical page `0x80003000` mapped readable, writable and user at virtual
page `0` of `kmemHi`'s table: `mappages` takes both free pages for the tables
under the root and returns `0`, and the table maps that page alone. -/
theorem kmemHi_mapped :
    ∃ k', mappages kmemHi 0x80000000 0 4096 0x80003000 (pteR ||| pteW ||| pteU) = .ok (0, k') ∧
      PtInv 0x80000000 k' 0x80000000 ∧ k'.freelist = [] ∧
      (∀ w, w < maxva → w.toNat % 4096 = 0 → k'.lookup 0x80000000 w =
        if w = 0 then some (pa2pte 0x80003000 ||| (pteR ||| pteW ||| pteU) ||| pteV) else none) ∧
      (∀ t, IsTable k'.mem 0x80000000 t → t = 0x80000000 ∨ t = 0x80001000 ∨ t = 0x80002000) ∧
      ∀ x, OutsideTables k'.mem 0x80000000 x → k'.mem x = hiMem x := by
  have hv : (match mappages kmemHi 0x80000000 0 4096 0x80003000 (pteR ||| pteW ||| pteU) with
      | .ok (v, k') => decide (v = 0 ∧ k'.freelist = [])
      | .error _ => false) = true := by decide +kernel
  cases hm : mappages kmemHi 0x80000000 0 4096 0x80003000 (pteR ||| pteW ||| pteU) with
  | error e =>
    rw [hm] at hv
    cases hv
  | ok res =>
    obtain ⟨v, k'⟩ := res
    rw [hm] at hv
    obtain ⟨rfl, hfl⟩ := of_decide_eq_true hv
    obtain ⟨hpt', hlk, htab, hout⟩ :=
      mappages_one_page ptInv_kmemHi (lookup_of_zero hiMem_root _) (by decide) (by decide) hm
    refine ⟨k', rfl, hpt', hfl, hlk, fun t ht => ?_, hout⟩
    rcases htab t ht with ⟨a, ha⟩ | hfree
    · -- the root is the one page of the empty table
      change nodePage hiMem _ a = some t at ha
      rw [nodePage_of_zero hiMem_root] at ha
      split_ifs at ha
      cases ha
      exact .inl rfl
    · simp only [kmemHi, List.mem_cons, List.not_mem_nil, or_false] at hfree
      exact .inr hfree

end OnePage

end Xv6.Kernel
