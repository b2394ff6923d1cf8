import Xv6.Kernel.Vm.Kalloc

/-!
# Page-table walks and the tree they read

A page table is a tree of page-table pages in physical memory: the root, the
level-1 page each valid root entry points to, and the level-0 page each valid
entry of those points to; the valid entries of level-0 pages are the leaves.
`nodePage m r` names the page at each place of the tree, and `leafAt` reads
the leaf entries. `TreeInv` says the tree is one: its pages are nonzero, the
root is page-aligned, and no page sits at two places.

`walk(pt, va, alloc)` follows `PX(2, va)` and `PX(1, va)` down; with
`alloc` it fills a missing page with a zeroed page from `kalloc`.
`Kmem.lookup` is the page table read as a map from virtual pages to leaf
entries: the leaf entry `walk(pt, va, 0)` reaches, when valid. `lookup_eq_leafAt` reads it off the
tree.

The lemmas that carry every later proof say what a store to memory does to
the tree:

* `nodePage_congr`, `leafAt_congr` — a store outside the tree's pages changes
  neither;
* `nodePage_store_l0`, `leafAt_store_l0` — a store to a leaf slot changes that
  leaf alone;
* `attach_l1`, `attach_l0` — storing an entry for a zeroed page that was in
  no place of the tree adds it as a page, and no leaf.
-/

namespace Xv6.Kernel

open Xv6.Lib

/-- Entry `i` of the page-table page at `t`: `((pte_t *)t)[i]`. -/
def pteAt (m : Mem) (t i : Nat) : UInt64 := m.load64 (t + 8 * i)

/-- The page valid entry `i` of `t` points to. -/
def follow (m : Mem) (t i : Nat) : Option Nat :=
  if PteValid (pteAt m t i) then some (pte2pa (pteAt m t i)).toNat else none

/-- A place in a three-level tree: the root, the level-1 page under root entry
`i`, the level-0 page under its entry `j`. -/
inductive Node
  | l2
  | l1 (i : Fin 512)
  | l0 (i j : Fin 512)
  deriving DecidableEq

/-- The page at each place of the tree rooted at `r`. -/
def nodePage (m : Mem) (r : Nat) : Node → Option Nat
  | .l2 => some r
  | .l1 i => follow m r i
  | .l0 i j => (follow m r i).bind fun t => follow m t j

/-- The leaf entry `l` of the level-0 page of `(i, j)`, when valid. -/
def leafAt (m : Mem) (r : Nat) (i j : Fin 512) (l : Nat) : Option UInt64 :=
  (nodePage m r (.l0 i j)).bind fun t =>
    if PteValid (pteAt m t l) then some (pteAt m t l) else none

/-- `t` is a page of the tree. -/
def IsTable (m : Mem) (r t : Nat) : Prop := ∃ a, nodePage m r a = some t

/-- The tree at `r` is a tree of nonzero pages, rooted at a page-aligned one. -/
structure TreeInv (m : Mem) (r : Nat) : Prop where
  aligned : r % 4096 = 0
  pos : ∀ a t, nodePage m r a = some t → 0 < t
  inj : ∀ a b t, nodePage m r a = some t → nodePage m r b = some t → a = b

/-- `memset(pagetable, 0, PGSIZE); *pte = PA2PTE(pagetable) | PTE_V`: page `p`
zeroed and linked from the entry at address `pte`. -/
def Kmem.linkPage (k : Kmem) (pte p : Nat) : Kmem :=
  ⟨(k.mem.memset p 0 4096).store64 pte (pa2pte (UInt64.ofNat p) ||| pteV), k.freelist⟩

/-- The loop of `walk`, at page-table page `pt` of level `level`. -/
def walkLoop (va : UInt64) (alloc : Bool) : Nat → Kmem → Nat → Nat × Kmem
  | 0, k, pt => (pt + 8 * px 0 va, k)
  | level + 1, k, pt =>
    let pte := pt + 8 * px (level + 1) va
    let e := k.mem.load64 pte
    if PteValid e then walkLoop va alloc level k (pte2pa e).toNat
    else if !alloc then (0, k)
    else
      let (p, k) := kalloc k
      if p = 0 then (0, k)
      else walkLoop va alloc level (k.linkPage pte p) p

/-- `walk(pagetable, va, alloc)`: the address of the leaf entry for `va`, `0`
when a page is missing (and not allocated). -/
def walk (k : Kmem) (pt : Nat) (va : UInt64) (alloc : Bool) : Except String (Nat × Kmem) :=
  if va ≥ maxva then .error "walk" else .ok (walkLoop va alloc 2 k pt)

/-- `walkaddr(pagetable, va)`: the physical page of a valid user mapping, else `0`. -/
def walkaddr (k : Kmem) (pt : Nat) (va : UInt64) : Except String UInt64 :=
  if va ≥ maxva then .ok 0
  else do
    let (pte, _) ← walk k pt va false
    if pte = 0 then return 0
    let e := k.mem.load64 pte
    if ¬PteValid e then return 0
    if e &&& pteU = 0 then return 0
    return pte2pa e

/-- The page table at `pt` as a partial map on virtual addresses: the leaf
entry `walk(pt, va, 0)` reaches, when it is valid. -/
def Kmem.lookup (k : Kmem) (pt : Nat) (va : UInt64) : Option UInt64 :=
  match walk k pt va false with
  | .ok (pte, _) => if pte ≠ 0 ∧ PteValid (k.mem.load64 pte) then some (k.mem.load64 pte) else none
  | .error _ => none

/-! ## Reading entries -/

/-- Memories `m` and `m'` agree on the page at `t`. -/
def PageAgree (m m' : Mem) (t : Nat) : Prop := ∀ x, t ≤ x → x < t + 4096 → m' x = m x

section Read

variable {m m' : Mem} {r t : Nat}

theorem pteAt_congr {i : Nat} (hi : i < 512) (h : PageAgree m m' t) : pteAt m' t i = pteAt m t i :=
  Mem.load64_congr fun o ho => h _ (by omega) (by omega)

theorem follow_congr {i : Nat} (hi : i < 512) (h : PageAgree m m' t) : follow m' t i = follow m t i := by
  unfold follow
  rw [pteAt_congr hi h]

/-- The tree's places depend only on the root and the level-1 pages. -/
theorem nodePage_congr (h₂ : PageAgree m m' r)
    (h₁ : ∀ (i : Fin 512) t, follow m r i = some t → PageAgree m m' t) :
    ∀ a, nodePage m' r a = nodePage m r a
  | .l2 => rfl
  | .l1 i => follow_congr i.isLt h₂
  | .l0 i j => by
    simp only [nodePage, follow_congr i.isLt h₂]
    cases hf : follow m r i with
    | none => simp only [Option.bind_none]
    | some t => simp only [Option.bind_some, follow_congr j.isLt (h₁ i t hf)]

/-- A store that misses every page of the tree changes no place and no leaf. -/
theorem congr_of_agree (h : ∀ a t, nodePage m r a = some t → PageAgree m m' t) :
    (∀ a, nodePage m' r a = nodePage m r a) ∧
      ∀ i j l, l < 512 → leafAt m' r i j l = leafAt m r i j l := by
  have hnode := nodePage_congr (h .l2 r rfl) fun i t hf => h (.l1 i) t hf
  refine ⟨hnode, fun i j l hl => ?_⟩
  unfold leafAt
  rw [hnode]
  cases ht : nodePage m r (.l0 i j) with
  | none => simp only [Option.bind_none]
  | some t => simp only [Option.bind_some, pteAt_congr hl (h _ t ht)]

theorem TreeInv.congr (hinv : TreeInv m r) (h : ∀ a, nodePage m' r a = nodePage m r a) :
    TreeInv m' r :=
  ⟨hinv.aligned, fun a t ha => hinv.pos a t (by rwa [← h]),
    fun a b t ha hb => hinv.inj a b t (by rwa [← h]) (by rwa [← h])⟩

/-- Every page of the tree is page-aligned. -/
theorem TreeInv.page_aligned (hinv : TreeInv m r) : ∀ {a t}, nodePage m r a = some t → t % 4096 = 0
  | .l2, t, h => by
    cases h
    exact hinv.aligned
  | .l1 i, t, h => by
    simp only [nodePage, follow] at h
    split_ifs at h
    cases h
    exact pte2pa_aligned _
  | .l0 i j, t, h => by
    simp only [nodePage, Option.bind_eq_some_iff] at h
    obtain ⟨t', -, h⟩ := h
    unfold follow at h
    split_ifs at h
    cases h
    exact pte2pa_aligned _

/-- Two aligned pages that differ do not overlap. -/
theorem apart_of_aligned {p q : Nat} (hp : p % 4096 = 0) (hq : q % 4096 = 0) (hne : p ≠ q) :
    p + 4096 ≤ q ∨ q + 4096 ≤ p := by
  omega

/-- A write that stays inside one page agrees with the old memory on every other page. -/
theorem pageAgree_write_of_apart {p q a n : Nat} (f : Nat → UInt8) (hp : p % 4096 = 0)
    (hq : q % 4096 = 0) (hne : p ≠ q) (ha : p ≤ a) (hn : a + n ≤ p + 4096) :
    PageAgree m (m.write a n f) q := fun x hx₁ hx₂ =>
  m.write_of_disjoint f (by have := apart_of_aligned hp hq hne; omega)

end Read

/-! ## Storing entries -/

section Store

variable {m m₁ : Mem} {r t : Nat}

@[simp] theorem pteAt_store64_self (m : Mem) (t l : Nat) (v : UInt64) :
    pteAt (m.store64 (t + 8 * l) v) t l = v :=
  Mem.load64_store64 _ _ _

theorem pteAt_store64_of_ne (m : Mem) {t l l' : Nat} (v : UInt64) (h : l ≠ l') :
    pteAt (m.store64 (t + 8 * l) v) t l' = pteAt m t l' :=
  Mem.load64_write_of_disjoint _ _ (by omega)

/-- A store to a slot of page `t` agrees with the old memory on every other page. -/
theorem pageAgree_store64 {q l : Nat} (v : UInt64) (ht : t % 4096 = 0) (hq : q % 4096 = 0)
    (hne : t ≠ q) (hl : l < 512) : PageAgree m (m.store64 (t + 8 * l) v) q :=
  pageAgree_write_of_apart _ ht hq hne (Nat.le_add_right t _) (by omega)

theorem TreeInv.page_ne (hinv : TreeInv m r) {a b : Node} {p q : Nat} (ha : nodePage m r a = some p)
    (hb : nodePage m r b = some q) (hab : a ≠ b) : p ≠ q := fun h =>
  hab (hinv.inj a b p ha (h ▸ hb))

/-- Storing to a leaf slot changes no place of the tree. -/
theorem nodePage_store_l0 (hinv : TreeInv m r) {i j : Fin 512} (ht : nodePage m r (.l0 i j) = some t)
    {l : Nat} (hl : l < 512) (v : UInt64) (a : Node) :
    nodePage (m.store64 (t + 8 * l) v) r a = nodePage m r a := by
  have htal := hinv.page_aligned ht
  refine nodePage_congr ?_ (fun i' t' hf => ?_) a
  · exact pageAgree_store64 v htal hinv.aligned
      (hinv.page_ne ht (show nodePage m r .l2 = some r from rfl) (by simp)) hl
  · have hf' : nodePage m r (.l1 i') = some t' := hf
    exact pageAgree_store64 v htal (hinv.page_aligned hf') (hinv.page_ne ht hf' (by simp)) hl

/-- Storing to a leaf slot changes that leaf alone. -/
theorem leafAt_store_l0 (hinv : TreeInv m r) {i j : Fin 512} (ht : nodePage m r (.l0 i j) = some t)
    {l : Nat} (hl : l < 512) (v : UInt64) (i' j' : Fin 512) {l' : Nat} (hl' : l' < 512) :
    leafAt (m.store64 (t + 8 * l) v) r i' j' l' =
      if i' = i ∧ j' = j ∧ l' = l then (if PteValid v then some v else none)
      else leafAt m r i' j' l' := by
  unfold leafAt
  rw [nodePage_store_l0 hinv ht hl]
  by_cases hij : i' = i ∧ j' = j
  · -- the level-0 page the store went to
    obtain ⟨rfl, rfl⟩ := hij
    rw [ht]
    simp only [Option.bind_some, true_and]
    by_cases hll : l' = l
    · subst hll
      rw [pteAt_store64_self, if_pos rfl]
    · rw [pteAt_store64_of_ne _ _ (Ne.symm hll), if_neg hll]
  · rw [if_neg (fun h => hij ⟨h.1, h.2.1⟩)]
    cases ht' : nodePage m r (.l0 i' j') with
    | none => simp only [Option.bind_none]
    | some t' =>
      have hne : t ≠ t' := hinv.page_ne ht ht' (by intro h; cases h; exact hij ⟨rfl, rfl⟩)
      have hagree := pageAgree_store64 (m := m) v (hinv.page_aligned ht) (hinv.page_aligned ht') hne hl
      simp only [Option.bind_some, pteAt_congr hl' hagree]

/-- Eight zero bytes read as the zero word. -/
theorem pteAt_of_zero {p l : Nat} (hl : l < 512) (hzero : ∀ x, p ≤ x → x < p + 4096 → m x = 0) :
    pteAt m p l = 0 := by
  have hz : pteAt m p l = pteAt (fun _ => 0) p l :=
    pteAt_congr hl fun x hx₁ hx₂ => hzero x hx₁ hx₂
  rw [hz]
  rfl

/-- The entry `walk` stores for a new page points to it. -/
theorem follow_store64_mk (m : Mem) (t s : Nat) {p : Nat} (hp : p % 4096 = 0) (hp64 : p < 2 ^ 64) :
    follow (m.store64 (t + 8 * s) (pa2pte (UInt64.ofNat p) ||| pteV)) t s = some p := by
  have hpa : (UInt64.ofNat p).toNat = p := by
    rw [UInt64.toNat_ofNat', Nat.mod_eq_of_lt hp64]
  unfold follow
  rw [pteAt_store64_self, if_pos (valid_or_pteV _), pte2pa_mk (by rw [hpa]; exact hp) (by decide),
    hpa]

/-- A tree that gains a nonzero page at one place, where the page was at no
place before, is still a tree. -/
theorem TreeInv.extend {m' : Mem} (hinv : TreeInv m r) {c : Node} {p : Nat}
    (hnode : ∀ a, nodePage m' r a = if a = c then some p else nodePage m r a) (hp0 : 0 < p)
    (hfresh : ¬IsTable m r p) : TreeInv m' r := by
  refine ⟨hinv.aligned, fun a t ha => ?_, fun a b t ha hb => ?_⟩
  · rw [hnode] at ha
    split_ifs at ha
    · cases ha
      exact hp0
    · exact hinv.pos a t ha
  · rw [hnode] at ha hb
    split_ifs at ha hb with h₁ h₂ h₂
    · rw [h₁, h₂]
    · cases ha
      exact absurd ⟨b, hb⟩ hfresh
    · cases hb
      exact absurd ⟨a, ha⟩ hfresh
    · exact hinv.inj a b t ha hb

/-- A zeroed page in no place of the tree, stored as root entry `s` where
there was none, becomes the level-1 page of `s`, and no leaf appears. -/
theorem attach_l1 (hinv : TreeInv m r) {s : Fin 512} (hs : follow m r s = none) {p : Nat}
    (hp : p % 4096 = 0) (hp0 : 0 < p) (hp64 : p < 2 ^ 64) (hfresh : ¬IsTable m r p)
    (hagree : ∀ a t, nodePage m r a = some t → PageAgree m m₁ t)
    (hzero : ∀ x, p ≤ x → x < p + 4096 → m₁ x = 0) :
    (∀ a, nodePage (m₁.store64 (r + 8 * s) (pa2pte (UInt64.ofNat p) ||| pteV)) r a =
      if a = .l1 s then some p else nodePage m r a) ∧
    (∀ i j l, l < 512 →
      leafAt (m₁.store64 (r + 8 * s) (pa2pte (UInt64.ofNat p) ||| pteV)) r i j l = leafAt m r i j l) ∧
    TreeInv (m₁.store64 (r + 8 * s) (pa2pte (UInt64.ofNat p) ||| pteV)) r := by
  obtain ⟨hnode₁, hleaf₁⟩ := congr_of_agree hagree
  set v := pa2pte (UInt64.ofNat p) ||| pteV
  have hpr : p ≠ r := fun h => hfresh ⟨.l2, by rw [h]; rfl⟩
  -- the new page and the root are the only pages the new entry and the zeroing touch
  have hroot : ∀ i : Fin 512, i ≠ s → follow (m₁.store64 (r + 8 * s) v) r i = follow m r i := by
    intro i hi
    have h₁ : follow m₁ r i = follow m r i := hnode₁ (.l1 i)
    rw [← h₁]
    unfold follow
    rw [pteAt_store64_of_ne _ _ (fun h => hi (Fin.ext h.symm))]
  have hpage : ∀ q, q % 4096 = 0 → q ≠ r → PageAgree m₁ (m₁.store64 (r + 8 * s) v) q :=
    fun q hq hne => pageAgree_store64 v hinv.aligned hq (Ne.symm hne) s.isLt
  have hnode : ∀ a, nodePage (m₁.store64 (r + 8 * s) v) r a =
      if a = .l1 s then some p else nodePage m r a := by
    intro a
    match a with
    | .l2 => rfl
    | .l1 i =>
      by_cases hi : i = s
      · subst hi
        rw [if_pos rfl]
        exact follow_store64_mk m₁ r i hp hp64
      · rw [if_neg (by simp [hi])]
        exact hroot i hi
    | .l0 i j =>
      rw [if_neg (by simp)]
      by_cases hi : i = s
      · -- under the new page: its entries are zero
        subst hi
        have hf : follow (m₁.store64 (r + 8 * i) v) r i = some p := follow_store64_mk m₁ r i hp hp64
        simp only [nodePage, hf, hs, Option.bind_some, Option.bind_none]
        unfold follow
        rw [pteAt_congr j.isLt (hpage p hp hpr), pteAt_of_zero j.isLt hzero, if_neg not_valid_zero]
      · simp only [nodePage, hroot i hi]
        cases hf : follow m r i with
        | none => simp only [Option.bind_none]
        | some t =>
          have ht : nodePage m r (.l1 i) = some t := hf
          have htr : t ≠ r := hinv.page_ne ht (show nodePage m r .l2 = some r from rfl) (by simp)
          simp only [Option.bind_some]
          rw [follow_congr j.isLt (hpage t (hinv.page_aligned ht) htr)]
          exact follow_congr j.isLt (hagree _ t ht)
  refine ⟨hnode, fun i j l hl => ?_, ?_⟩
  · unfold leafAt
    rw [hnode, if_neg (by simp)]
    cases ht : nodePage m r (.l0 i j) with
    | none => simp only [Option.bind_none]
    | some t =>
      have htr : t ≠ r := hinv.page_ne ht (show nodePage m r .l2 = some r from rfl) (by simp)
      simp only [Option.bind_some]
      rw [pteAt_congr hl (hpage t (hinv.page_aligned ht) htr), pteAt_congr hl (hagree _ t ht)]
  · exact hinv.extend hnode hp0 hfresh

/-- A zeroed page in no place of the tree, stored as entry `s` of the level-1
page of root entry `i` where there was none, becomes the level-0 page of
`(i, s)`, and no leaf appears. -/
theorem attach_l0 (hinv : TreeInv m r) {i s : Fin 512} (ht : follow m r i = some t)
    (hs : follow m t s = none) {p : Nat} (hp : p % 4096 = 0) (hp0 : 0 < p) (hp64 : p < 2 ^ 64)
    (hfresh : ¬IsTable m r p) (hagree : ∀ a t, nodePage m r a = some t → PageAgree m m₁ t)
    (hzero : ∀ x, p ≤ x → x < p + 4096 → m₁ x = 0) :
    (∀ a, nodePage (m₁.store64 (t + 8 * s) (pa2pte (UInt64.ofNat p) ||| pteV)) r a =
      if a = .l0 i s then some p else nodePage m r a) ∧
    (∀ i j l, l < 512 →
      leafAt (m₁.store64 (t + 8 * s) (pa2pte (UInt64.ofNat p) ||| pteV)) r i j l = leafAt m r i j l) ∧
    TreeInv (m₁.store64 (t + 8 * s) (pa2pte (UInt64.ofNat p) ||| pteV)) r := by
  obtain ⟨hnode₁, -⟩ := congr_of_agree hagree
  set v := pa2pte (UInt64.ofNat p) ||| pteV
  have ht' : nodePage m r (.l1 i) = some t := ht
  have htal := hinv.page_aligned ht'
  have hpt : p ≠ t := fun h => hfresh ⟨.l1 i, by rw [h]; exact ht'⟩
  -- every page but `t` keeps its bytes through the store; the tree's pages, and `p`, through the zeroing
  have hpage : ∀ q, q % 4096 = 0 → q ≠ t → PageAgree m₁ (m₁.store64 (t + 8 * s) v) q :=
    fun q hq hne => pageAgree_store64 v htal hq (Ne.symm hne) s.isLt
  have hboth : ∀ a q, nodePage m r a = some q → q ≠ t → PageAgree m (m₁.store64 (t + 8 * s) v) q :=
    fun a q hq hne x hx₁ hx₂ => by
      rw [hpage q (hinv.page_aligned hq) hne x hx₁ hx₂, hagree a q hq x hx₁ hx₂]
  have htr : t ≠ r := hinv.page_ne ht' (show nodePage m r .l2 = some r from rfl) (by simp)
  have hroot : ∀ i' : Fin 512, follow (m₁.store64 (t + 8 * s) v) r i' = follow m r i' :=
    fun i' => follow_congr i'.isLt (hboth .l2 r rfl (Ne.symm htr))
  have hnode : ∀ a, nodePage (m₁.store64 (t + 8 * s) v) r a =
      if a = .l0 i s then some p else nodePage m r a := by
    intro a
    match a with
    | .l2 => rfl
    | .l1 i' => rw [if_neg (by simp)]; exact hroot i'
    | .l0 i' j =>
      simp only [nodePage, hroot i']
      by_cases hi : i' = i
      · subst hi
        rw [ht]
        simp only [Option.bind_some]
        by_cases hj : j = s
        · -- the new entry
          subst hj
          rw [if_pos rfl]
          exact follow_store64_mk m₁ t j hp hp64
        · rw [if_neg (by simp [hj])]
          unfold follow
          rw [pteAt_store64_of_ne _ _ (fun h => hj (Fin.ext h.symm))]
          have h₁ : follow m₁ t j = follow m t j := follow_congr j.isLt (hagree _ t ht')
          unfold follow at h₁
          exact h₁
      · rw [if_neg (by simp [hi])]
        cases hf : follow m r i' with
        | none => simp only [Option.bind_none]
        | some t' =>
          have hf' : nodePage m r (.l1 i') = some t' := hf
          have hne : t' ≠ t := hinv.page_ne hf' ht' (by simp [hi])
          simp only [Option.bind_some]
          exact follow_congr j.isLt (hboth _ t' hf' hne)
  refine ⟨hnode, fun i' j l hl => ?_, hinv.extend hnode hp0 hfresh⟩
  unfold leafAt
  rw [hnode]
  split_ifs with hc
  · -- the new level-0 page is zero: no leaf, as there was no page before
    obtain ⟨rfl, rfl⟩ : i' = i ∧ j = s := by simpa using hc
    have hnone : nodePage m r (.l0 i' j) = none := by
      simp only [nodePage, ht, Option.bind_some]
      exact hs
    simp only [hnone, Option.bind_some, Option.bind_none]
    rw [pteAt_congr hl (hpage p hp hpt), pteAt_of_zero hl hzero, if_neg not_valid_zero]
  · cases hq : nodePage m r (.l0 i' j) with
    | none => simp only [Option.bind_none]
    | some q =>
      have hne : q ≠ t := hinv.page_ne hq ht' (by simp)
      simp only [Option.bind_some]
      rw [pteAt_congr hl (hboth _ q hq hne)]

end Store

/-! ## Walks -/

section Walks

variable {kend r : Nat} {k k' k'' : Kmem}

theorem walkLoop_succ_false (va : UInt64) (level : Nat) (k : Kmem) (pt : Nat) :
    walkLoop va false (level + 1) k pt =
      match follow k.mem pt (px (level + 1) va) with
      | some t => walkLoop va false level k t
      | none => (0, k) := by
  simp only [walkLoop, follow, pteAt]
  by_cases h : PteValid (k.mem.load64 (pt + 8 * px (level + 1) va))
  · simp only [h, if_true]
  · simp only [h, if_false, Bool.not_false, ite_true]

/-- Without allocation, `walk` reads the tree: the leaf slot of the level-0
page of `va`'s indices, `0` when that page is missing. -/
theorem walkLoop_false (k : Kmem) (r : Nat) (va : UInt64) :
    walkLoop va false 2 k r =
      ((nodePage k.mem r (.l0 ⟨px 2 va, px_lt 2 va⟩ ⟨px 1 va, px_lt 1 va⟩)).elim 0
        (fun t => t + 8 * px 0 va), k) := by
  have h₂ := walkLoop_succ_false va 1 k r
  have h₁ := fun t => walkLoop_succ_false va 0 k t
  simp only [Nat.reduceAdd] at h₂ h₁
  rw [h₂]
  simp only [nodePage]
  cases follow k.mem r (px 2 va) with
  | none => rfl
  | some t =>
    dsimp only
    rw [h₁ t]
    simp only [Option.bind_some]
    cases follow k.mem t (px 1 va) with
    | none => rfl
    | some t' => rfl

/-- The abstract map reads the leaf under `va`'s indices. -/
theorem lookup_eq_leafAt (hinv : TreeInv k.mem r) {va : UInt64} (hva : va < maxva) :
    k.lookup r va = leafAt k.mem r ⟨px 2 va, px_lt 2 va⟩ ⟨px 1 va, px_lt 1 va⟩ (px 0 va) := by
  unfold Kmem.lookup walk leafAt
  rw [if_neg (UInt64.not_le.mpr hva), walkLoop_false]
  cases ht : nodePage k.mem r (.l0 ⟨px 2 va, px_lt 2 va⟩ ⟨px 1 va, px_lt 1 va⟩) with
  | none => simp
  | some t =>
    have hne : t + 8 * px 0 va ≠ 0 := by
      have := hinv.pos _ t ht
      omega
    simp only [Option.elim, Option.bind_some, pteAt, ne_eq, hne, not_false_eq_true, true_and]
    by_cases hv : PteValid (k.mem.load64 (t + 8 * px 0 va)) <;> simp [hv]

/-- The allocator and one page table together: each is well formed, and no
free page is a page of the tree. -/
structure PtInv (kend : Nat) (k : Kmem) (r : Nat) : Prop where
  tree : TreeInv k.mem r
  free : FreeInv kend k
  disj : ∀ p ∈ k.freelist, ¬IsTable k.mem r p

/-- Byte `x` lies in no page of the tree. -/
def OutsideTables (m : Mem) (r x : Nat) : Prop := ∀ t, IsTable m r t → x < t ∨ t + 4096 ≤ x

/-- What allocating walks do from `k` to `k'`: every place of the tree keeps
its page, the pages taken from the head of the free list are pages of the
tree, every new page of the tree was free, and no byte outside the tree's
pages changes. -/
structure Grows (r : Nat) (k k' : Kmem) : Prop where
  nodes : ∀ a t, nodePage k.mem r a = some t → nodePage k'.mem r a = some t
  taken : ∃ n, k'.freelist = k.freelist.drop n ∧ ∀ p ∈ k.freelist.take n, IsTable k'.mem r p
  fresh : ∀ t, IsTable k'.mem r t → IsTable k.mem r t ∨ t ∈ k.freelist
  outside : ∀ x, OutsideTables k'.mem r x → k'.mem x = k.mem x

theorem Grows.refl (r : Nat) (k : Kmem) : Grows r k k :=
  ⟨fun _ _ h => h, ⟨0, rfl, by simp⟩, fun _ h => .inl h, fun _ _ => rfl⟩

theorem Grows.trans (h₁ : Grows r k k') (h₂ : Grows r k' k'') : Grows r k k'' := by
  obtain ⟨n₁, hl₁, ht₁⟩ := h₁.taken
  obtain ⟨n₂, hl₂, ht₂⟩ := h₂.taken
  refine ⟨fun a t h => h₂.nodes a t (h₁.nodes a t h), ⟨n₁ + n₂, ?_, fun p hp => ?_⟩,
    fun t ht => ?_, fun x hx => ?_⟩
  · rw [hl₂, hl₁, List.drop_drop]
  · rw [List.take_add] at hp
    rcases List.mem_append.mp hp with hp | hp
    · obtain ⟨a, ha⟩ := ht₁ p hp
      exact ⟨a, h₂.nodes a p ha⟩
    · rw [← hl₁] at hp
      exact ht₂ p hp
  · -- a page free after the first growth was free before it
    rcases h₂.fresh t ht with ht' | ht'
    · exact h₁.fresh t ht'
    · rw [hl₁] at ht'
      exact .inr (List.mem_of_mem_drop ht')
  · have hx' : OutsideTables k'.mem r x := fun t ⟨a, ha⟩ => hx t ⟨a, h₂.nodes a t ha⟩
    rw [h₂.outside x hx, h₁.outside x hx']

/-- A page `kalloc` hands out is a fresh page: aligned, nonzero, in no place
of the tree; zeroing it keeps every page of the tree. -/
theorem PtInv.kalloc_fresh (hpt : PtInv kend k r) {p : Nat} {k₁ : Kmem} (hk : kalloc k = (p, k₁))
    (hp : p ≠ 0) :
    k.freelist = p :: k₁.freelist ∧ p % 4096 = 0 ∧ 0 < p ∧ p < 2 ^ 64 ∧ ¬IsTable k.mem r p ∧
      (∀ a t, nodePage k.mem r a = some t → PageAgree k.mem (k₁.mem.memset p 0 4096) t) ∧
      (∀ x, p ≤ x → x < p + 4096 → k₁.mem.memset p 0 4096 x = 0) := by
  obtain ⟨hmem, hl⟩ := kalloc_mem hk hp
  have hjunk : k₁.mem = k.mem.memset p 5 4096 := by
    rcases kalloc_cases hk with ⟨rfl, -, -⟩ | ⟨-, h⟩
    · exact absurd rfl hp
    · exact h
  have hal := hpt.free.aligned p hmem
  have hrange := hpt.free.range p hmem
  have hpos := hpt.free.pos
  have hphy : phystop < 2 ^ 64 := by decide
  have hfresh := hpt.disj p hmem
  refine ⟨hl, hal, by omega, by omega, hfresh, fun a t ht x hx₁ hx₂ => ?_, fun x hx₁ hx₂ => ?_⟩
  · -- a page of the tree is not `p`, so neither fill reaches it
    have hne : p ≠ t := fun h => hfresh ⟨a, h ▸ ht⟩
    have hsep := apart_of_aligned hal (hpt.tree.page_aligned ht) hne
    simp only [Mem.memset, hjunk]
    rw [Mem.write_of_disjoint _ _ (by omega), Mem.write_of_disjoint _ _ (by omega)]
  · simp only [Mem.memset]
    rw [Mem.write_of_mem _ _ hx₁ hx₂]

/-- A page `kalloc` returned, linked into the tree at a place `c` that had none
from an entry of the tree's page `t`, keeps the invariant and is growth. -/
theorem PtInv.linked (hpt : PtInv kend k r) {p : Nat} {k₁ : Kmem} (hk : kalloc k = (p, k₁))
    (hp : p ≠ 0) (hfl : k'.freelist = k₁.freelist) {c : Node} (hc : nodePage k.mem r c = none)
    {t : Nat} (htab : IsTable k.mem r t)
    (hnode : ∀ a, nodePage k'.mem r a = if a = c then some p else nodePage k.mem r a)
    (htree : TreeInv k'.mem r)
    (hmem : ∀ x, (x < p ∨ p + 4096 ≤ x) → (x < t ∨ t + 4096 ≤ x) → k'.mem x = k.mem x) :
    PtInv kend k' r ∧ Grows r k k' := by
  obtain ⟨hl, -, -, -, hfresh, -, -⟩ := hpt.kalloc_fresh hk hp
  have hnodup := hpt.free.nodup
  rw [hl] at hnodup
  have hold : ∀ a q, nodePage k.mem r a = some q → nodePage k'.mem r a = some q := fun a q hq => by
    rw [hnode, if_neg (by rintro rfl; rw [hc] at hq; cases hq)]
    exact hq
  have hnew : IsTable k'.mem r p := ⟨c, by rw [hnode, if_pos rfl]⟩
  refine ⟨⟨htree, (hpt.free.kalloc hk).of_freelist hfl, fun q hq ⟨a, ha⟩ => ?_⟩,
    ⟨hold, ⟨1, ?_, fun q hq => ?_⟩, fun q ⟨a, ha⟩ => ?_, fun x hx => ?_⟩⟩
  · rw [hfl] at hq
    rw [hnode] at ha
    split_ifs at ha
    · cases ha
      exact (List.nodup_cons.mp hnodup).1 hq
    · exact hpt.disj q (by rw [hl]; exact List.mem_cons_of_mem _ hq) ⟨a, ha⟩
  · rw [hfl, hl, List.drop_one, List.tail_cons]
  · rw [hl] at hq
    simp only [List.take_succ_cons, List.take_zero, List.mem_singleton] at hq
    rw [hq]
    exact hnew
  · -- the one new page is the page `kalloc` took
    rw [hnode] at ha
    split_ifs at ha
    · cases ha
      rw [hl]
      exact .inr List.mem_cons_self
    · exact .inl ⟨a, ha⟩
  · obtain ⟨a, ha⟩ := htab
    exact hmem x (hx p hnew) (hx t ⟨a, hold a t ha⟩)

/-- The bytes `linkPage` changes: the new page, and the entry's word. -/
theorem linkPage_mem_of_outside (k : Kmem) {pte p x : Nat} (hp : x < p ∨ p + 4096 ≤ x)
    (hpte : x < pte ∨ pte + 8 ≤ x) : (k.linkPage pte p).mem x = k.mem x := by
  simp only [Kmem.linkPage, Mem.store64, Mem.memset]
  rw [Mem.write_of_disjoint _ _ hpte, Mem.write_of_disjoint _ _ hp]

/-- What `walk` leaves after it: the invariant, growth, the same leaves, and
either `0` or the leaf slot of `va` in the level-0 page. -/
def WalkPost (kend r : Nat) (k : Kmem) (i j : Fin 512) (l : Nat) (res : Nat × Kmem) : Prop :=
  PtInv kend res.2 r ∧ Grows r k res.2 ∧
    (∀ i j l, l < 512 → leafAt res.2.mem r i j l = leafAt k.mem r i j l) ∧
    (res.1 = 0 ∨ ∃ t, nodePage res.2.mem r (.l0 i j) = some t ∧ res.1 = t + 8 * l)

theorem WalkPost.grow {i j : Fin 512} {l : Nat} {res : Nat × Kmem} (hg : Grows r k k') (hleaf : ∀ i j l, l < 512 → leafAt k'.mem r i j l = leafAt k.mem r i j l)
    (h : WalkPost kend r k' i j l res) : WalkPost kend r k i j l res := by
  obtain ⟨hpt', hg', hleaf', hres⟩ := h
  exact ⟨hpt', hg.trans hg', fun i j l hl => by rw [hleaf' i j l hl, hleaf i j l hl], hres⟩

theorem walkLoop_succ (va : UInt64) (alloc : Bool) (level : Nat) (k : Kmem) (pt : Nat) :
    walkLoop va alloc (level + 1) k pt =
      if PteValid (pteAt k.mem pt (px (level + 1) va)) then
        walkLoop va alloc level k (pte2pa (pteAt k.mem pt (px (level + 1) va))).toNat
      else if !alloc then (0, k)
      else if (kalloc k).1 = 0 then (0, (kalloc k).2)
      else walkLoop va alloc level ((kalloc k).2.linkPage (pt + 8 * px (level + 1) va) (kalloc k).1)
        (kalloc k).1 := by
  rw [walkLoop]
  rfl

/-- `kalloc` finds nothing only on an empty list, and then changes nothing. -/
theorem PtInv.kalloc_zero (hpt : PtInv kend k r) {k₁ : Kmem} (hk : kalloc k = (0, k₁)) : k₁ = k := by
  rcases kalloc_cases hk with ⟨-, h, -⟩ | ⟨hl, -⟩
  · exact h
  · -- page `0` is never free
    have h0 := hpt.free.range 0 (by rw [hl]; exact List.mem_cons_self)
    have := hpt.free.pos
    omega

/-- One level of an allocating walk at the tree's page `t`, whose entry `s`
leads to place `c`: when the entry is missing, `kalloc` either fails, and
nothing changes, or its page is linked there. -/
theorem walkLoop_alloc_step (hpt : PtInv kend k r) {c : Node} {t : Nat} {s : Fin 512}
    (htab : IsTable k.mem r t) (hc : nodePage k.mem r c = follow k.mem t s)
    (hv : ¬PteValid (pteAt k.mem t s))
    (hattach : ∀ {p : Nat} {m₁ : Mem}, p % 4096 = 0 → 0 < p → p < 2 ^ 64 → ¬IsTable k.mem r p →
      (∀ a t, nodePage k.mem r a = some t → PageAgree k.mem m₁ t) →
      (∀ x, p ≤ x → x < p + 4096 → m₁ x = 0) →
      (∀ a, nodePage (m₁.store64 (t + 8 * s) (pa2pte (UInt64.ofNat p) ||| pteV)) r a =
        if a = c then some p else nodePage k.mem r a) ∧
      (∀ i j l, l < 512 →
        leafAt (m₁.store64 (t + 8 * s) (pa2pte (UInt64.ofNat p) ||| pteV)) r i j l = leafAt k.mem r i j l) ∧
      TreeInv (m₁.store64 (t + 8 * s) (pa2pte (UInt64.ofNat p) ||| pteV)) r) :
    ((kalloc k).1 = 0 ∧ (kalloc k).2 = k) ∨
      ((kalloc k).1 ≠ 0 ∧ PtInv kend ((kalloc k).2.linkPage (t + 8 * s) (kalloc k).1) r ∧
        Grows r k ((kalloc k).2.linkPage (t + 8 * s) (kalloc k).1) ∧
        (∀ i j l, l < 512 →
          leafAt ((kalloc k).2.linkPage (t + 8 * s) (kalloc k).1).mem r i j l = leafAt k.mem r i j l) ∧
        nodePage ((kalloc k).2.linkPage (t + 8 * s) (kalloc k).1).mem r c = some (kalloc k).1) := by
  rcases hk : kalloc k with ⟨p, k₁⟩
  by_cases hp : p = 0
  · subst hp
    exact .inl ⟨rfl, hpt.kalloc_zero hk⟩
  obtain ⟨-, hal, hp0, hp64, hfresh, hagree, hzero⟩ := hpt.kalloc_fresh hk hp
  obtain ⟨hnode, hleaf, htree⟩ := hattach hal hp0 hp64 hfresh hagree hzero
  have hnone : nodePage k.mem r c = none := by rw [hc, follow, if_neg hv]
  have hlink : PtInv kend (k₁.linkPage (t + 8 * s) p) r ∧ Grows r k (k₁.linkPage (t + 8 * s) p) :=
    hpt.linked hk hp rfl hnone htab hnode htree fun x hxp hxt => by
      rw [linkPage_mem_of_outside _ hxp (by have := s.isLt; omega), kalloc_mem_outside hk hxp]
  exact .inr ⟨hp, hlink.1, hlink.2, hleaf, (hnode c).trans (if_pos rfl)⟩

/-- The last level of an allocating walk, from the level-1 page of root entry `i`. -/
theorem walkLoop_one (hpt : PtInv kend k r) {i : Fin 512} {t : Nat} (ht : follow k.mem r i = some t)
    (va : UInt64) :
    WalkPost kend r k i ⟨px 1 va, px_lt 1 va⟩ (px 0 va) (walkLoop va true 1 k t) := by
  set s : Fin 512 := ⟨px 1 va, px_lt 1 va⟩
  have ht' : nodePage k.mem r (.l1 i) = some t := ht
  have hstep := walkLoop_succ va true 0 k t
  simp only [Nat.reduceAdd] at hstep
  rw [hstep]
  by_cases hv : PteValid (pteAt k.mem t s)
  · -- the level-0 page is there
    rw [if_pos hv]
    refine ⟨hpt, Grows.refl r k, fun _ _ _ _ => rfl, .inr ⟨_, ?_, rfl⟩⟩
    show (follow k.mem r i).bind (fun t => follow k.mem t s) = _
    rw [ht, Option.bind_some]
    simp only [follow, if_pos hv]
    rfl
  rw [if_neg hv]
  have hc : nodePage k.mem r (.l0 i s) = follow k.mem t s := by
    simp only [nodePage, ht, Option.bind_some]
  rcases walkLoop_alloc_step hpt ⟨.l1 i, ht'⟩ hc hv (attach_l0 hpt.tree ht (by
      rw [follow, if_neg hv])) with ⟨h0, hk⟩ | ⟨h0, hpt', hg, hleaf, hnode⟩
  · -- out of memory: nothing changed
    simp only [Bool.not_true, Bool.false_eq_true, if_false, h0, if_true, hk]
    exact ⟨hpt, Grows.refl r k, fun _ _ _ _ => rfl, .inl rfl⟩
  · simp only [Bool.not_true, Bool.false_eq_true, if_false, h0]
    exact ⟨hpt', hg, hleaf, .inr ⟨_, hnode, rfl⟩⟩

/-- An allocating walk keeps the invariant, grows the tree, changes no leaf,
and returns `0` or the leaf slot of `va` in its level-0 page. -/
theorem walk_alloc (hpt : PtInv kend k r) {va : UInt64} (hva : va < maxva) :
    ∃ res, walk k r va true = .ok res ∧
      WalkPost kend r k ⟨px 2 va, px_lt 2 va⟩ ⟨px 1 va, px_lt 1 va⟩ (px 0 va) res := by
  refine ⟨walkLoop va true 2 k r, by rw [walk, if_neg (UInt64.not_le.mpr hva)], ?_⟩
  set s : Fin 512 := ⟨px 2 va, px_lt 2 va⟩
  have hstep := walkLoop_succ va true 1 k r
  simp only [Nat.reduceAdd] at hstep
  rw [hstep]
  by_cases hv : PteValid (pteAt k.mem r s)
  · -- the level-1 page is there
    rw [if_pos hv]
    exact walkLoop_one hpt (by simp only [follow, if_pos hv]; rfl) va
  rw [if_neg hv]
  rcases walkLoop_alloc_step hpt ⟨.l2, rfl⟩ (c := .l1 s) rfl hv (attach_l1 hpt.tree (by
      rw [follow, if_neg hv])) with ⟨h0, hk⟩ | ⟨h0, hpt', hg, hleaf, hnode⟩
  · simp only [Bool.not_true, Bool.false_eq_true, if_false, h0, if_true, hk]
    exact ⟨hpt, Grows.refl r k, fun _ _ _ _ => rfl, .inl rfl⟩
  · simp only [Bool.not_true, Bool.false_eq_true, if_false, h0]
    exact (walkLoop_one hpt' hnode va).grow hg hleaf

end Walks

end Xv6.Kernel
