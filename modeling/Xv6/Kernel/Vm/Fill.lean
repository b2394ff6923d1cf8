import Xv6.Kernel.Vm.Map

/-!
# Filling pages one at a time

The common loop of `uvmalloc` and `uvmcopy` of `vm.c`: a page from `kalloc`,
filled (with zeros, or with a copy of another page), then mapped by
`mappages`. When `kalloc` or `mappages` fails, the page is freed and the pages
mapped so far are unmapped and freed.

`FillInv` is what such a loop keeps from its start `k₀` at page `a0`: the
pages `[a0, a)` map distinct pages that were free at the start and hold what
was filled in; every other page is mapped as at the start; every page taken
from the free list is a page of the tree or one of those; and the state has
moved from `k₀` only as `Evolves` allows: no byte changes outside the tree's
pages and the pages free at the start.

* `FillInv.fill` — one more page: `kalloc`, the fill and `mappages`, and on
  failure the `kfree` of the page;
* `FillInv.rollback` — `uvmunmap` of `[a0, a)` with `do_free` gives back the
  map of the start and frees every page filled;
* `Evolves.untouched`, `Evolves.keeps_tree` — a page that was neither free nor
  a page of the tree keeps its bytes, and a second tree apart from both keeps
  its map.
-/

namespace Xv6.Kernel

open Xv6.Lib

/-! ## Filling pages one at a time -/

section Fill

variable {kend r : Nat} {k k₀ : Kmem} {a0 : UInt64} {fl : UInt64 → UInt64}
  {cont : UInt64 → Nat → UInt8}

/-- Byte `x` lies in a page of the tree or a free page of `k₀`: the only bytes
a filling loop from `k₀` may change. -/
def Touchable (k₀ : Kmem) (r x : Nat) : Prop :=
  ∃ q, (IsTable k₀.mem r q ∨ q ∈ k₀.freelist) ∧ q ≤ x ∧ x < q + 4096

/-- How far `k` has moved from `k₀`: its new pages of the tree and its free
pages were free in `k₀`, and it changed only touchable bytes. -/
structure Evolves (r : Nat) (k₀ k : Kmem) : Prop where
  tables : ∀ t, IsTable k.mem r t → IsTable k₀.mem r t ∨ t ∈ k₀.freelist
  shrinks : ∀ p ∈ k.freelist, p ∈ k₀.freelist
  frame : ∀ x, k.mem x ≠ k₀.mem x → Touchable k₀ r x

/-- A step that writes inside the page `p` only and keeps the tree: `kalloc`
with the fill of its page, or `kfree`. -/
structure PageStep (r : Nat) (k k' : Kmem) (p : Nat) : Prop where
  aligned : p % 4096 = 0
  nodes : ∀ c, nodePage k'.mem r c = nodePage k.mem r c
  freelist : ∀ s ∈ k'.freelist, s ∈ k.freelist ∨ s = p
  outside : ∀ x, x < p ∨ p + 4096 ≤ x → k'.mem x = k.mem x

theorem Evolves.refl (r : Nat) (k₀ : Kmem) : Evolves r k₀ k₀ :=
  ⟨fun _ h => .inl h, fun _ h => h, fun _ h => absurd rfl h⟩

theorem Evolves.grow {k' : Kmem} (hE : Evolves r k₀ k) (hg : Grows r k k') : Evolves r k₀ k' := by
  obtain ⟨n, hl, -⟩ := hg.taken
  refine ⟨fun t ht => ?_, fun p hp => hE.shrinks p (List.mem_of_mem_drop (hl ▸ hp)), fun x hx => ?_⟩
  · rcases hg.fresh t ht with h | h
    · exact hE.tables t h
    · exact .inr (hE.shrinks t h)
  · by_cases hx' : k'.mem x = k.mem x
    · exact hE.frame x (hx' ▸ hx)
    -- a byte the growth changed lies in a page of the tree
    have hin : ¬OutsideTables k'.mem r x := fun h => hx' (hg.outside x h)
    simp only [OutsideTables, not_forall] at hin
    obtain ⟨t, ht, hxt⟩ := hin
    rcases hg.fresh t ht with h | h
    · exact ⟨t, hE.tables t h, by omega, by omega⟩
    · exact ⟨t, .inr (hE.shrinks t h), by omega, by omega⟩

theorem PageStep.isTable {k' : Kmem} {p : Nat} (hs : PageStep r k k' p) {q : Nat} :
    IsTable k'.mem r q ↔ IsTable k.mem r q :=
  ⟨fun ⟨c, hc⟩ => ⟨c, hs.nodes c ▸ hc⟩, fun ⟨c, hc⟩ => ⟨c, (hs.nodes c).symm ▸ hc⟩⟩

theorem PageStep.evolves {k' : Kmem} {p : Nat} (hs : PageStep r k k' p) (hE : Evolves r k₀ k)
    (hp : p ∈ k₀.freelist) : Evolves r k₀ k' := by
  refine ⟨fun t ht => hE.tables t (hs.isTable.mp ht), fun q hq => ?_, fun x hx => ?_⟩
  · rcases hs.freelist q hq with h | h
    · exact hE.shrinks q h
    · exact h ▸ hp
  · by_cases hx' : k'.mem x = k.mem x
    · exact hE.frame x (hx' ▸ hx)
    · have : p ≤ x ∧ x < p + 4096 := by
        by_contra h
        exact hx' (hs.outside x (by omega))
      exact ⟨p, .inr hp, this.1, this.2⟩

/-- A page apart from `p`, neither free nor of the tree, stays so and keeps its
bytes across a step inside `p`. -/
theorem PageStep.keeps_page {k' : Kmem} {p : Nat} (hs : PageStep r k k' p) {q : Nat}
    (hq : q % 4096 = 0) (hne : q ≠ p) (hnf : q ∉ k.freelist) (hnt : ¬IsTable k.mem r q) :
    q ∉ k'.freelist ∧ ¬IsTable k'.mem r q ∧ ∀ x, q ≤ x → x < q + 4096 → k'.mem x = k.mem x := by
  refine ⟨fun h => (hs.freelist q h).elim hnf hne, fun h => hnt (hs.isTable.mp h),
    fun x hx₁ hx₂ => hs.outside x ?_⟩
  have := apart_of_aligned hq hs.aligned hne
  omega

/-- A step inside a page that is no page of the tree keeps the map. -/
theorem PageStep.lookup {k' : Kmem} {p : Nat} (hs : PageStep r k k' p) (hinv : TreeInv k.mem r)
    (hnt : ¬IsTable k.mem r p) {w : UInt64} (hw : w < maxva) : k'.lookup r w = k.lookup r w := by
  obtain ⟨-, hleaf⟩ : (∀ c, nodePage k'.mem r c = nodePage k.mem r c) ∧
      ∀ i j l, l < 512 → leafAt k'.mem r i j l = leafAt k.mem r i j l :=
    congr_of_agree fun c t ht x hx₁ hx₂ => by
      have hne : p ≠ t := fun h => hnt ⟨c, h ▸ ht⟩
      have := apart_of_aligned hs.aligned (hinv.page_aligned ht) hne
      exact hs.outside x (by omega)
  exact lookup_congr_leaf hinv (hinv.congr hs.nodes) hleaf hw

/-- What a filling loop from `k₀` at page `a0` keeps when it has reached page
`a`: page `w` of `[a0, a)` went to physical page `pg w`, with flags `fl w`
and bytes `cont w`. -/
structure FillInv (kend r : Nat) (k₀ : Kmem) (a0 : UInt64) (fl : UInt64 → UInt64)
    (cont : UInt64 → Nat → UInt8) (pg : UInt64 → Nat) (a : UInt64) (k : Kmem) : Prop where
  inv : PtInv kend k r
  evolves : Evolves r k₀ k
  unmapped : ∀ w : UInt64, w.toNat % 4096 = 0 → a0.toNat ≤ w.toNat → w.toNat < a.toNat →
    k₀.lookup r w = none
  other : ∀ w, w < maxva → w.toNat % 4096 = 0 → ¬(a0.toNat ≤ w.toNat ∧ w.toNat < a.toNat) →
    k.lookup r w = k₀.lookup r w
  filled : ∀ w : UInt64, w.toNat % 4096 = 0 → a0.toNat ≤ w.toNat → w.toNat < a.toNat →
    k.lookup r w = some (pa2pte (UInt64.ofNat (pg w)) ||| fl w ||| pteV) ∧
      pg w ∈ k₀.freelist ∧ pg w ∉ k.freelist ∧ ¬IsTable k.mem r (pg w) ∧
      ∀ i < 4096, k.mem (pg w + i) = cont w i
  inj : ∀ w w' : UInt64, w.toNat % 4096 = 0 → w'.toNat % 4096 = 0 → a0.toNat ≤ w.toNat →
    w.toNat < a.toNat → a0.toNat ≤ w'.toNat → w'.toNat < a.toNat → pg w = pg w' → w = w'
  kept : ∀ p ∈ k₀.freelist, p ∈ k.freelist ∨ IsTable k.mem r p ∨
    ∃ w : UInt64, w.toNat % 4096 = 0 ∧ a0.toNat ≤ w.toNat ∧ w.toNat < a.toNat ∧ pg w = p

/-- Nothing filled yet. -/
theorem FillInv.start (hpt : PtInv kend k₀ r) (pg : UInt64 → Nat) :
    FillInv kend r k₀ a0 fl cont pg a0 k₀ where
  inv := hpt
  evolves := Evolves.refl r k₀
  unmapped _ _ h₁ h₂ := absurd h₂ (by omega)
  other _ _ _ _ := rfl
  filled _ _ h₁ h₂ := absurd h₂ (by omega)
  inj _ _ _ _ h₁ h₂ := absurd h₂ (by omega)
  kept _ h := .inl h

/-- A page from `kalloc`, filled with `f`: it was free, aligned, below `2^64`
and no page of the tree, and the fill is a step inside it that keeps the
invariant. -/
theorem PtInv.kalloc_write (hpt : PtInv kend k r) {p : Nat} {k₁ : Kmem} (hk : kalloc k = (p, k₁))
    (hp : p ≠ 0) (f : Nat → UInt8) :
    k.freelist = p :: k₁.freelist ∧ p < 2 ^ 64 ∧ ¬IsTable k.mem r p ∧
      PageStep r k ⟨k₁.mem.write p 4096 f, k₁.freelist⟩ p ∧
      PtInv kend ⟨k₁.mem.write p 4096 f, k₁.freelist⟩ r := by
  obtain ⟨hl, hal, -, hp64, hfresh, -, -⟩ := hpt.kalloc_fresh hk hp
  have hout : ∀ x, x < p ∨ p + 4096 ≤ x → k₁.mem.write p 4096 f x = k.mem x := fun x hx => by
    rw [Mem.write_of_disjoint _ _ hx, kalloc_mem_outside hk hx]
  -- the fill misses every page of the tree
  have hnode : ∀ c, nodePage (k₁.mem.write p 4096 f) r c = nodePage k.mem r c :=
    (congr_of_agree fun c t ht x hx₁ hx₂ => by
      have hne : p ≠ t := fun h => hfresh ⟨c, h ▸ ht⟩
      have := apart_of_aligned hal (hpt.tree.page_aligned ht) hne
      exact hout x (by omega)).1
  have hs : PageStep r k ⟨k₁.mem.write p 4096 f, k₁.freelist⟩ p :=
    ⟨hal, hnode, fun s hs => .inl (by rw [hl]; exact List.mem_cons_of_mem _ hs), hout⟩
  refine ⟨hl, hp64, hfresh, hs, hpt.tree.congr hnode, (hpt.free.kalloc hk).of_freelist rfl,
    fun q hq hq' => ?_⟩
  have hq₀ : q ∈ k.freelist := by
    rw [hl]
    exact List.mem_cons_of_mem _ hq
  exact hpt.disj q hq₀ (hs.isTable.mp hq')

/-- `kfree` of a page that is neither free nor of the tree is a step inside it. -/
theorem PtInv.kfree_step (hpt : PtInv kend k r) {p : Nat} {k' : Kmem}
    (hk : Xv6.Kernel.kfree kend k p = .ok k')
    (hfree : p ∉ k.freelist) (htab : ¬IsTable k.mem r p) :
    PtInv kend k' r ∧ PageStep r k k' p ∧ k'.freelist = p :: k.freelist := by
  obtain ⟨hal, -, -, hl, hout⟩ := kfree_ok hk
  obtain ⟨hpt', hnode, -⟩ := hpt.kfree hk hfree htab
  refine ⟨hpt', ⟨hal, hnode, fun s hs => ?_, hout⟩, hl⟩
  rw [hl] at hs
  rcases List.mem_cons.mp hs with h | h
  · exact .inr h
  · exact .inl h

/-- A free page before growth is still free or is a page of the tree. -/
theorem Grows.kept {k' : Kmem} (hg : Grows r k k') {p : Nat} (hp : p ∈ k.freelist) :
    p ∈ k'.freelist ∨ IsTable k'.mem r p := by
  obtain ⟨n, hl, htake⟩ := hg.taken
  rw [← List.take_append_drop n k.freelist] at hp
  rcases List.mem_append.mp hp with h | h
  · exact .inr (htake p h)
  · rw [hl]
    exact .inl h

/-- A page that is neither free nor a page of the tree stays so, and keeps its
bytes, across growth. -/
theorem Grows.keeps_page {k' : Kmem} (hg : Grows r k k') (hpt' : PtInv kend k' r) {p : Nat}
    (hal : p % 4096 = 0) (hnf : p ∉ k.freelist) (hnt : ¬IsTable k.mem r p) :
    p ∉ k'.freelist ∧ ¬IsTable k'.mem r p ∧ ∀ x, p ≤ x → x < p + 4096 → k'.mem x = k.mem x := by
  obtain ⟨n, hl, -⟩ := hg.taken
  have hnt' : ¬IsTable k'.mem r p := fun h => (hg.fresh p h).elim hnt hnf
  refine ⟨fun h => hnf (List.mem_of_mem_drop (hl ▸ h)), hnt', fun x hx₁ hx₂ => ?_⟩
  refine hg.outside x fun t ⟨c, hc⟩ => ?_
  have hne : p ≠ t := fun h => hnt' ⟨c, h ▸ hc⟩
  have := apart_of_aligned hal (hpt'.tree.page_aligned hc) hne
  omega

/-- Aligned pages of `[a, a + PGSIZE)` are `a`. -/
theorem eq_of_page {w a : UInt64} (hw : w.toNat % 4096 = 0) (ha : a.toNat % 4096 = 0)
    (h₁ : a.toNat ≤ w.toNat) (h₂ : w.toNat < a.toNat + 4096) : w = a :=
  UInt64.toNat_inj.mp (by omega)

/-- `mappages` of one unmapped page: it maps the page and returns `0`, or
returns `-1` and maps nothing. -/
theorem mappages_page (hpt : PtInv kend k r) (a pa perm : UInt64) (ha : a.toNat % 4096 = 0)
    (ham : a.toNat + 4096 ≤ maxva.toNat) (hfree : k.lookup r a = none) :
    ∃ v k', mappages k r a pgsize pa perm = .ok (v, k') ∧ PtInv kend k' r ∧ Grows r k k' ∧
      (v = 0 ∨ v = -1) ∧ ∀ w, w < maxva → w.toNat % 4096 = 0 →
        k'.lookup r w = if v = 0 ∧ w = a then some (pa2pte pa ||| perm ||| pteV) else k.lookup r w := by
  obtain ⟨hlast, ⟨v, k'⟩, hres, hpost⟩ := mappages_spec hpt a pgsize pa perm ha rfl (by decide)
    (by rw [pgsize_toNat]; exact ham) fun w hw h₁ h₂ => by
      rw [pgsize_toNat] at h₂
      rw [eq_of_page hw ha h₁ h₂]
      exact hfree
  rw [pgsize_toNat] at hlast
  obtain ⟨n, hn, hlk⟩ := hpost.pages
  refine ⟨v, k', hres, hpost.inv, hpost.grows, ?_, fun w hw hwa => ?_⟩
  · rcases hn with ⟨hv, -⟩ | ⟨hv, -⟩
    · exact .inl hv
    · exact .inr hv
  rw [hlk w hw hwa]
  rcases hn with ⟨hv, hn⟩ | ⟨hv, hn⟩
  · -- one page mapped: `a` itself
    have hn1 : n = 1 := by omega
    subst hv hn1
    by_cases hwa' : w = a
    · subst hwa'
      rw [if_pos ⟨le_rfl, by omega⟩, if_pos ⟨rfl, rfl⟩, UInt64.sub_self, UInt64.add_zero]
    · have : w.toNat ≠ a.toNat := fun h => hwa' (UInt64.toNat_inj.mp h)
      rw [if_neg (fun h => hwa' (eq_of_page hwa ha h.1 (by omega))), if_neg (fun h => hwa' h.2)]
  · -- none mapped
    have hn0 : n = 0 := by omega
    subst hv hn0
    rw [if_neg (by omega), if_neg (fun h => absurd h.1 (by decide))]

/-- One more page: `kalloc` gave `p`, filled with `f`, and `mappages` maps it
at `a`. On `0` the invariant reaches the next page with `a` sent to `p`; on
`-1`, `kfree(p)` brings it back to `a`. -/
theorem FillInv.fill (hpt₀ : PtInv kend k₀ r) {pg : UInt64 → Nat} {a : UInt64}
    (hI : FillInv kend r k₀ a0 fl cont pg a k) (ha : a.toNat % 4096 = 0) (ha0 : a0.toNat ≤ a.toNat)
    (ham : a.toNat + 4096 ≤ maxva.toNat) (hfree : k₀.lookup r a = none)
    {p : Nat} {k₁ : Kmem} (hk : kalloc k = (p, k₁)) (hp : p ≠ 0)
    (f : Nat → UInt8) (hf : ∀ i < 4096, f i = cont a i) :
    ∃ v k₂, mappages ⟨k₁.mem.write p 4096 f, k₁.freelist⟩ r a pgsize (UInt64.ofNat p) (fl a) =
        .ok (v, k₂) ∧
      (v = 0 → FillInv kend r k₀ a0 fl cont (Function.update pg a p) (a + pgsize) k₂) ∧
      (v ≠ 0 → ∃ k₃, Xv6.Kernel.kfree kend k₂ p = .ok k₃ ∧ FillInv kend r k₀ a0 fl cont pg a k₃) := by
  obtain ⟨hl, hp64, hfresh, hs₁, hpt₁⟩ := hI.inv.kalloc_write hk hp f
  set k₁' : Kmem := ⟨k₁.mem.write p 4096 f, k₁.freelist⟩
  have hpk : p ∈ k.freelist := by
    rw [hl]
    exact List.mem_cons_self
  have hp₀ : p ∈ k₀.freelist := hI.evolves.shrinks p hpk
  have hpnf : p ∉ k₁'.freelist := by
    have hnd := hI.inv.free.nodup
    rw [hl] at hnd
    exact (List.nodup_cons.mp hnd).1
  have hpnt : ¬IsTable k₁'.mem r p := fun h => hfresh (hs₁.isTable.mp h)
  have hama : a < maxva := UInt64.lt_iff_toNat_lt.mpr (by omega)
  have hlk₁ : ∀ w, w < maxva → k₁'.lookup r w = k.lookup r w := fun w hw =>
    hs₁.lookup hI.inv.tree hfresh hw
  have hnone : k₁'.lookup r a = none := by
    rw [hlk₁ a hama, hI.other a hama ha (by omega), hfree]
  obtain ⟨v, k₂, hres, hpt₂, hg₂, -, hlk₂⟩ := mappages_page hpt₁ a (UInt64.ofNat p) (fl a) ha ham hnone
  have hE₂ : Evolves r k₀ k₂ := (hs₁.evolves hI.evolves hp₀).grow hg₂
  -- every other page is mapped as before
  have hlk₂' : ∀ w, w < maxva → w.toNat % 4096 = 0 → ¬(v = 0 ∧ w = a) →
      k₂.lookup r w = k.lookup r w := fun w hw hwa hn => by
    rw [hlk₂ w hw hwa, if_neg hn, hlk₁ w hw]
  -- the pages filled before keep their bytes, and so does `p`
  have hold : ∀ w : UInt64, w.toNat % 4096 = 0 → a0.toNat ≤ w.toNat → w.toNat < a.toNat →
      pg w ≠ p ∧ pg w ∉ k₂.freelist ∧ ¬IsTable k₂.mem r (pg w) ∧
        ∀ i < 4096, k₂.mem (pg w + i) = cont w i := fun w hwa h₁ h₂ => by
    obtain ⟨-, hw₀, hnf, hnt, hbytes⟩ := hI.filled w hwa h₁ h₂
    have hne : pg w ≠ p := fun h => hnf (h ▸ hpk)
    have hal := hpt₀.free.aligned _ hw₀
    obtain ⟨hnf₁, hnt₁, hb₁⟩ := hs₁.keeps_page hal hne hnf hnt
    obtain ⟨hnf₂, hnt₂, hb₂⟩ := hg₂.keeps_page hpt₂ hal hnf₁ hnt₁
    refine ⟨hne, hnf₂, hnt₂, fun i hi => ?_⟩
    rw [hb₂ _ (by omega) (by omega), hb₁ _ (by omega) (by omega), hbytes i hi]
  have hnew : p ∉ k₂.freelist ∧ ¬IsTable k₂.mem r p ∧ ∀ i < 4096, k₂.mem (p + i) = cont a i := by
    obtain ⟨hnf₂, hnt₂, hb₂⟩ := hg₂.keeps_page hpt₂ hs₁.aligned hpnf hpnt
    refine ⟨hnf₂, hnt₂, fun i hi => ?_⟩
    rw [hb₂ _ (by omega) (by omega), ← hf i hi]
    show k₁.mem.write p 4096 f (p + i) = f i
    rw [Mem.write_of_mem _ _ (by omega) (by omega), Nat.add_sub_cancel_left]
  -- a page free at the start: still free, of the tree, or `p`
  have hkept : ∀ q ∈ k.freelist, q = p ∨ q ∈ k₂.freelist ∨ IsTable k₂.mem r q := fun q hq => by
    rw [hl] at hq
    rcases List.mem_cons.mp hq with h | h
    · exact .inl h
    · exact .inr (hg₂.kept h)
  have htab₂ : ∀ q, IsTable k.mem r q → IsTable k₂.mem r q := fun q ⟨c, hc⟩ =>
    ⟨c, hg₂.nodes c q ((hs₁.nodes c).trans hc)⟩
  refine ⟨v, k₂, hres, fun hv0 => ?_, fun hv0 => ?_⟩
  · -- `mappages` mapped `a` to `p`
    have hnext : (a + pgsize).toNat = a.toNat + 4096 := by
      rw [maxva_toNat] at ham
      rw [UInt64.toNat_add, pgsize_toNat]
      omega
    have hofNat : (UInt64.ofNat p).toNat = p := UInt64.toNat_ofNat_of_lt' hp64
    refine ⟨hpt₂, hE₂, fun w hwa h₁ h₂ => ?_, fun w hw hwa hn => ?_, fun w hwa h₁ h₂ => ?_,
      fun w w' hwa hwa' h₁ h₂ h₁' h₂' hpg => ?_, fun q hq => ?_⟩
    · rw [hnext] at h₂
      by_cases hlt : w.toNat < a.toNat
      · exact hI.unmapped w hwa h₁ hlt
      · rw [eq_of_page hwa ha (by omega) h₂]
        exact hfree
    · rw [hnext] at hn
      have hne : w ≠ a := fun h => hn ⟨h ▸ ha0, by rw [h]; omega⟩
      rw [hlk₂' w hw hwa (fun h => hne h.2), hI.other w hw hwa (by omega)]
    · rw [hnext] at h₂
      by_cases hwa' : w = a
      · subst hwa'
        rw [Function.update_self]
        exact ⟨by rw [hlk₂ w hama hwa, if_pos ⟨hv0, rfl⟩], hp₀, hnew⟩
      · have hlt : w.toNat < a.toNat := by
          have : w.toNat ≠ a.toNat := fun h => hwa' (UInt64.toNat_inj.mp h)
          omega
        rw [Function.update_of_ne hwa']
        obtain ⟨hlk, hw₀, -⟩ := hI.filled w hwa h₁ hlt
        obtain ⟨-, hnf, hnt, hb⟩ := hold w hwa h₁ hlt
        have hw : w < maxva := UInt64.lt_iff_toNat_lt.mpr (by omega)
        exact ⟨by rw [hlk₂' w hw hwa (fun h => hwa' h.2), hlk], hw₀, hnf, hnt, hb⟩
    · -- `p` differs from every page filled before
      rw [hnext] at h₂ h₂'
      by_cases hwa₁ : w = a <;> by_cases hwa₂ : w' = a
      · rw [hwa₁, hwa₂]
      · rw [hwa₁, Function.update_self, Function.update_of_ne hwa₂] at hpg
        have : w'.toNat ≠ a.toNat := fun h => hwa₂ (UInt64.toNat_inj.mp h)
        exact absurd hpg.symm (hold w' hwa' h₁' (by omega)).1
      · rw [hwa₂, Function.update_self, Function.update_of_ne hwa₁] at hpg
        have : w.toNat ≠ a.toNat := fun h => hwa₁ (UInt64.toNat_inj.mp h)
        exact absurd hpg (hold w hwa h₁ (by omega)).1
      · rw [Function.update_of_ne hwa₁, Function.update_of_ne hwa₂] at hpg
        have : w.toNat ≠ a.toNat := fun h => hwa₁ (UInt64.toNat_inj.mp h)
        have : w'.toNat ≠ a.toNat := fun h => hwa₂ (UInt64.toNat_inj.mp h)
        exact hI.inj w w' hwa hwa' h₁ (by omega) h₁' (by omega) hpg
    · rw [hnext]
      rcases hI.kept q hq with h | h | ⟨w, hwa, h₁, h₂, hpg⟩
      · rcases hkept q h with rfl | h | h
        · exact .inr (.inr ⟨a, ha, ha0, by omega, Function.update_self ..⟩)
        · exact .inl h
        · exact .inr (.inl h)
      · exact .inr (.inl (htab₂ q h))
      · have hne : w ≠ a := fun h => by rw [h] at h₂; omega
        exact .inr (.inr ⟨w, hwa, h₁, by omega, by rw [Function.update_of_ne hne, hpg]⟩)
  · -- `mappages` failed: `kfree(p)` gives the page back
    have hrange := hpt₀.free.range p hp₀
    obtain ⟨k₃, hk₃⟩ := kfree_of_range hs₁.aligned hrange.1 (by omega) k₂
    obtain ⟨hpt₃, hs₃, hl₃⟩ := hpt₂.kfree_step hk₃ hnew.1 hnew.2.1
    have hlk₃ : ∀ w, w < maxva → w.toNat % 4096 = 0 → k₃.lookup r w = k.lookup r w :=
      fun w hw hwa => by
        rw [hs₃.lookup hpt₂.tree hnew.2.1 hw, hlk₂' w hw hwa (fun h => hv0 h.1)]
    refine ⟨k₃, hk₃, hpt₃, hs₃.evolves hE₂ hp₀, hI.unmapped, fun w hw hwa hn => ?_,
      fun w hwa h₁ h₂ => ?_, hI.inj, fun q hq => ?_⟩
    · rw [hlk₃ w hw hwa, hI.other w hw hwa hn]
    · obtain ⟨hlk, hw₀, -⟩ := hI.filled w hwa h₁ h₂
      obtain ⟨hne, hnf, hnt, hb⟩ := hold w hwa h₁ h₂
      obtain ⟨hnf₃, hnt₃, hb₃⟩ := hs₃.keeps_page (hpt₀.free.aligned _ hw₀) hne hnf hnt
      have hw : w < maxva := UInt64.lt_iff_toNat_lt.mpr (by omega)
      refine ⟨by rw [hlk₃ w hw hwa, hlk], hw₀, hnf₃, hnt₃, fun i hi => ?_⟩
      rw [hb₃ _ (by omega) (by omega), hb i hi]
    · have hmem₃ : ∀ s ∈ k₂.freelist, s ∈ k₃.freelist := fun s hs => by
        rw [hl₃]
        exact List.mem_cons_of_mem _ hs
      rcases hI.kept q hq with h | h | h
      · rcases hkept q h with rfl | h | h
        · exact .inl (by rw [hl₃]; exact List.mem_cons_self)
        · exact .inl (hmem₃ q h)
        · exact .inr (.inl (hs₃.isTable.mpr h))
      · exact .inr (.inl (hs₃.isTable.mpr (htab₂ q h)))
      · exact .inr (.inr h)

/-- The state a failed fill leaves: the map of the start, and every page free
at the start free again or a page of the tree. -/
structure RolledBack (kend r : Nat) (k₀ k : Kmem) : Prop where
  inv : PtInv kend k r
  map : ∀ w, w < maxva → w.toNat % 4096 = 0 → k.lookup r w = k₀.lookup r w
  freed : ∀ q ∈ k₀.freelist, q ∈ k.freelist ∨ IsTable k.mem r q

/-- A page filled is an aligned page of `[end, PHYSTOP)`, so below `2^64`. -/
theorem FillInv.page_range (hpt₀ : PtInv kend k₀ r) {pg : UInt64 → Nat} {a : UInt64}
    (hI : FillInv kend r k₀ a0 fl cont pg a k) {w : UInt64} (hwa : w.toNat % 4096 = 0)
    (h₁ : a0.toNat ≤ w.toNat) (h₂ : w.toNat < a.toNat) :
    (UInt64.ofNat (pg w)).toNat = pg w ∧ pg w % 4096 = 0 ∧ kend ≤ pg w ∧ pg w < phystop := by
  have hw₀ := (hI.filled w hwa h₁ h₂).2.1
  have hrange := hpt₀.free.range _ hw₀
  have hphy : phystop < 2 ^ 64 := by decide
  exact ⟨UInt64.toNat_ofNat_of_lt' (show pg w < 2 ^ 64 by omega), hpt₀.free.aligned _ hw₀,
    hrange.1, by omega⟩

/-- Unmapping `[a0, a)` with `do_free`, as the failure paths do, gives the map
of the start back and frees every page filled. -/
theorem FillInv.rollback (hpt₀ : PtInv kend k₀ r) {pg : UInt64 → Nat} {a : UInt64}
    (hI : FillInv kend r k₀ a0 fl cont pg a k) (ha0 : a0.toNat % 4096 = 0)
    (ha : a.toNat % 4096 = 0) (h0a : a0.toNat ≤ a.toNat) (ham : a.toNat ≤ maxva.toNat)
    (hfl : ∀ w : UInt64, w.toNat % 4096 = 0 → a0.toNat ≤ w.toNat → w.toNat < a.toNat →
      (fl w).toNat < 1024 ∧ fl w ||| pteV ≠ pteV) :
    ∃ k', uvmunmap kend k r a0 ((a - a0) / pgsize) true = .ok k' ∧ RolledBack kend r k₀ k' := by
  have hn : ((a - a0) / pgsize).toNat = (a.toNat - a0.toNat) / 4096 := by
    rw [UInt64.toNat_div, UInt64.toNat_sub_of_le _ _ (UInt64.le_iff_toNat_le.mpr h0a), pgsize_toNat]
  have hstop : a0.toNat + 4096 * ((a - a0) / pgsize).toNat = a.toNat := by
    rw [hn]
    omega
  -- the entry at a filled page decodes to its page and flags
  have hdec : ∀ w : UInt64, w.toNat % 4096 = 0 → a0.toNat ≤ w.toNat → w.toNat < a.toNat →
      pte2pa (pa2pte (UInt64.ofNat (pg w)) ||| fl w ||| pteV) = UInt64.ofNat (pg w) ∧
        pteFlags (pa2pte (UInt64.ofNat (pg w)) ||| fl w ||| pteV) = fl w ||| pteV :=
    fun w hwa h₁ h₂ => by
      obtain ⟨hofNat, hal, -⟩ := hI.page_range hpt₀ hwa h₁ h₂
      exact decode_mk (by rw [hofNat]; exact hal) (hfl w hwa h₁ h₂).1
  obtain ⟨k', hk', hpost⟩ : ∃ k', uvmunmap kend k r a0 ((a - a0) / pgsize) true = .ok k' ∧
      UnmapPost kend r k true a0 (a0.toNat + 4096 * ((a - a0) / pgsize).toNat) k' :=
    uvmunmap_spec hI.inv true ha0 (by omega)
    (fun w hwa h₁ h₂ => by
      rw [hstop] at h₂
      obtain ⟨hlk, -, hnf, hnt, -⟩ := hI.filled w hwa h₁ h₂
      obtain ⟨hofNat, -, hlo, hhi⟩ := hI.page_range hpt₀ hwa h₁ h₂
      obtain ⟨hpa, hflags⟩ := hdec w hwa h₁ h₂
      refine ⟨_, hlk, by rw [hflags]; exact (hfl w hwa h₁ h₂).2, fun _ => ?_⟩
      rw [hpa, hofNat]
      exact ⟨hlo, hhi, hnf, hnt⟩)
    (fun _ w w' e e' hwa hwa' h₁ h₂ h₁' h₂' he he' hpa => by
      rw [hstop] at h₂ h₂'
      rw [(hI.filled w hwa h₁ h₂).1] at he
      rw [(hI.filled w' hwa' h₁' h₂').1] at he'
      have he₁ := Option.some.inj he
      have he₂ := Option.some.inj he'
      subst he₁ he₂
      rw [(hdec w hwa h₁ h₂).1, (hdec w' hwa' h₁' h₂').1] at hpa
      have hpg : pg w = pg w' := by
        rw [← (hI.page_range hpt₀ hwa h₁ h₂).1, ← (hI.page_range hpt₀ hwa' h₁' h₂').1, hpa]
      exact hI.inj w w' hwa hwa' h₁ h₂ h₁' h₂' hpg)
  refine ⟨k', hk', hpost.inv, fun w hw hwa => ?_, fun q hq => ?_⟩
  · rw [hpost.map w hw hwa, hstop]
    split_ifs with hin
    · exact (hI.unmapped w hwa hin.1 hin.2).symm
    · exact hI.other w hw hwa hin
  · have htab : ∀ q, IsTable k.mem r q → IsTable k'.mem r q := fun q ⟨c, hc⟩ =>
      ⟨c, (hpost.nodes c).trans hc⟩
    rcases hI.kept q hq with h | h | ⟨w, hwa, h₁, h₂, hpg⟩
    · exact .inl ((hpost.freed q).mpr (.inl h))
    · exact .inr (htab q h)
    · -- a filled page goes back to the free list
      refine .inl ((hpost.freed q).mpr (.inr ⟨rfl, w, _, hwa, h₁, by rw [hstop]; exact h₂,
        (hI.filled w hwa h₁ h₂).1, ?_⟩))
      rw [(hdec w hwa h₁ h₂).1, (hI.page_range hpt₀ hwa h₁ h₂).1, hpg]

/-- The flags of a valid entry include `PTE_V`. -/
theorem pteFlags_or_valid {e : UInt64} (hv : PteValid e) : pteFlags e ||| pteV = pteFlags e := by
  have hodd : e.toNat % 2 = 1 := by
    have h : (e &&& pteV).toNat ≠ 0 := fun h0 => hv (UInt64.toNat_inj.mp h0)
    rw [UInt64.toNat_and, show pteV.toNat = 1 from rfl, Nat.and_one_is_mod] at h
    omega
  apply UInt64.toNat_inj.mp
  rw [UInt64.toNat_or, pteFlags_toNat, show pteV.toNat = 1 from rfl]
  apply Nat.eq_of_testBit_eq
  intro j
  rw [Nat.testBit_or]
  cases j with
  | zero =>
    have : (e.toNat % 1024).testBit 0 = true := by
      simp only [Nat.testBit_zero, decide_eq_true_eq]
      omega
    simp [this]
  | succ j => simp [Nat.testBit_succ]

/-- A page that is neither a page of the tree nor free at the start is never
written. -/
theorem Evolves.untouched (hE : Evolves r k₀ k) (hpt₀ : PtInv kend k₀ r) {q : Nat}
    (hq : q % 4096 = 0) (hnt : ¬IsTable k₀.mem r q) (hnf : q ∉ k₀.freelist) :
    ∀ x, q ≤ x → x < q + 4096 → k.mem x = k₀.mem x := by
  intro x hx₁ hx₂
  by_contra hne
  obtain ⟨s, hs, hs₁, hs₂⟩ := hE.frame x hne
  have hsal : s % 4096 = 0 := by
    rcases hs with ⟨c, hc⟩ | hs
    · exact hpt₀.tree.page_aligned hc
    · exact hpt₀.free.aligned s hs
  -- two aligned pages that share a byte are one page
  have hsq : s = q := by omega
  subst hsq
  exact hs.elim hnt hnf

/-- A second tree, at `old`, whose pages are neither pages of the tree being
filled nor free keeps its map. -/
theorem Evolves.keeps_tree {old : Nat} (hE : Evolves r k₀ k) (hpt₀ : PtInv kend k₀ r)
    (hold : TreeInv k₀.mem old)
    (hapart : ∀ t, IsTable k₀.mem old t → ¬IsTable k₀.mem r t ∧ t ∉ k₀.freelist) :
    TreeInv k.mem old ∧ ∀ w, w < maxva → k.lookup old w = k₀.lookup old w := by
  obtain ⟨hnode, hleaf⟩ : (∀ c, nodePage k.mem old c = nodePage k₀.mem old c) ∧
      ∀ i j l, l < 512 → leafAt k.mem old i j l = leafAt k₀.mem old i j l :=
    congr_of_agree fun c t ht x hx₁ hx₂ => by
      obtain ⟨hnt, hnf⟩ := hapart t ⟨c, ht⟩
      exact hE.untouched hpt₀ (hold.page_aligned ht) hnt hnf x hx₁ hx₂
  have htree : TreeInv k.mem old := hold.congr hnode
  exact ⟨htree, fun w hw => lookup_congr_leaf hold htree hleaf hw⟩

end Fill

end Xv6.Kernel
