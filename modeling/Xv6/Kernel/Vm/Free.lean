import Mathlib.Data.List.FinRange
import Xv6.Kernel.Vm.Map
import Xv6.Lib.Reach

/-!
# Freeing a page table

`freewalk`, `uvmfree` and `uvmcreate` of `vm.c`. `freewalk(pagetable)` runs
over the 512 entries of a page-table page: an entry that points to a lower
page (valid, none of `R`, `W`, `X`) is freed first and then cleared, any
other valid entry is a leaf and panics, and the page itself goes to `kfree`
last.

`subPages m d t` lists the pages that freeing `t`, `d` levels above the
leaves, hands to `kfree`, in the order it does; `Shaped m d t` is the shape
the recursion expects, and `HasLeaf m d t` says a leaf is left. The recursion
is proved once, for any height (`freewalk_post`): the call fails with
`"freewalk: leaf"` exactly when a leaf is left, and otherwise pushes the
pages of `subPages` on the free list and writes nowhere else. For the three
levels of Sv39, `subPages` lists the places of the tree in post-order
(`subPages_two`), so each page once, which gives `freewalk_frees_tables`.
-/

namespace Xv6.Kernel

open Xv6.Lib

/-- `(pte & PTE_V) && (pte & (PTE_R|PTE_W|PTE_X)) == 0`: the entry points to a
lower page-table page. -/
def IsPointer (e : UInt64) : Prop := PteValid e ∧ e &&& (pteR ||| pteW ||| pteX) = 0

instance : DecidablePred IsPointer := fun _ => inferInstanceAs (Decidable (_ ∧ _))

/-- One pass of the loop of `freewalk` over page `pt`, at entry `i`; `child`
frees the page a pointer entry points to. -/
def freewalkEntry (child : Kmem → Nat → Except String Kmem) (pt : Nat) (k : Kmem) (i : Nat) :
    Except String Kmem :=
  let pte := pteAt k.mem pt i
  if IsPointer pte then do
    let k ← child k (pte2pa pte).toNat
    pure (k.setPte (pt + 8 * i) 0)
  else if PteValid pte then throw "freewalk: leaf"
  else pure k

/-- `freewalk(pagetable)`. The C function recurses as deep as pointer entries
lead; `depth` bounds the recursion, and the three levels of Sv39 need three. -/
def freewalk (kend : Nat) : Nat → Kmem → Nat → Except String Kmem
  | 0, _, _ => throw "freewalk: depth"
  | depth + 1, k, pt => do
    let k ← (List.range' 0 512).foldlM (freewalkEntry (freewalk kend depth) pt) k
    kfree kend k pt

/-- `uvmfree(pagetable, sz)`: unmap and free the user pages, then the page table. -/
def uvmfree (kend depth : Nat) (k : Kmem) (pt : Nat) (sz : UInt64) : Except String Kmem := do
  let k ← if sz > 0 then uvmunmap kend k pt 0 (pgroundup sz / pgsize) true else pure k
  freewalk kend depth k pt

/-- `uvmcreate()`: a zeroed root page, `0` when out of memory. -/
def uvmcreate (k : Kmem) : Nat × Kmem :=
  let (p, k) := kalloc k
  if p = 0 then (0, k) else (p, ⟨k.mem.memset p 0 4096, k.freelist⟩)

/-! ## What the recursion frees -/

/-- The pages `freewalk` frees from page `t`, `d` levels above the leaves, in
the order it frees them: those under each valid entry in turn, then `t`. -/
def subPages (m : Mem) : Nat → Nat → List Nat
  | 0, t => [t]
  | d + 1, t => ((List.range 512).flatMap fun i => (follow m t i).elim [] (subPages m d)) ++ [t]

/-- The pages under the entries of `t` before entry `j`. -/
def pagesBefore (m : Mem) (d t j : Nat) : List Nat :=
  (List.range j).flatMap fun i => (follow m t i).elim [] (subPages m d)

/-- The tree under `t`, `d` levels above the leaves, has the shape `freewalk`
walks: every valid entry above level 0 points to a page of the same shape,
and no valid entry of level 0 looks like a pointer. -/
def Shaped (m : Mem) : Nat → Nat → Prop
  | 0, t => ∀ i < 512, PteValid (pteAt m t i) → ¬IsPointer (pteAt m t i)
  | d + 1, t => ∀ i < 512, ∀ c, follow m t i = some c → IsPointer (pteAt m t i) ∧ Shaped m d c

/-- `Shaped`, computed: the same walk over the entries. -/
def shapedB (m : Mem) : Nat → Nat → Bool
  | 0, t => (List.range 512).all fun i =>
      !(decide (PteValid (pteAt m t i)) && decide (IsPointer (pteAt m t i)))
  | d + 1, t => (List.range 512).all fun i =>
      (follow m t i).elim true fun c => decide (IsPointer (pteAt m t i)) && shapedB m d c

theorem shapedB_iff (m : Mem) (d : Nat) : ∀ t, shapedB m d t = true ↔ Shaped m d t := by
  induction d with
  | zero =>
    intro t
    simp [shapedB, Shaped, imp_iff_not_or]
  | succ d ih =>
    intro t
    simp only [shapedB, Shaped, List.all_eq_true, List.mem_range]
    refine forall_congr' fun i => imp_congr_right fun _ => ?_
    -- an entry that `follow` does not take imposes nothing
    cases follow m t i with
    | none => simp
    | some c => simp [ih c]

instance (m : Mem) (d t : Nat) : Decidable (Shaped m d t) := decidable_of_iff _ (shapedB_iff m d t)

/-- A valid entry of level 0 is left under `t`. -/
def HasLeaf (m : Mem) : Nat → Nat → Prop
  | 0, t => ∃ i < 512, PteValid (pteAt m t i)
  | d + 1, t => ∃ i < 512, ∃ c, follow m t i = some c ∧ HasLeaf m d c

/-- `m'` differs from `m` only inside the pages `ps`. -/
def OnlyIn (ps : List Nat) (m m' : Mem) : Prop :=
  ∀ x, (∀ p ∈ ps, x < p ∨ p + 4096 ≤ x) → m' x = m x

section Frame

variable {ps qs : List Nat} {m m' m₁ m₂ : Mem}

theorem OnlyIn.trans (h₁ : OnlyIn ps m m₁) (h₂ : OnlyIn qs m₁ m₂) : OnlyIn (ps ++ qs) m m₂ :=
  fun x hx => by
    rw [h₂ x fun p hp => hx p (List.mem_append_right _ hp),
      h₁ x fun p hp => hx p (List.mem_append_left _ hp)]

theorem OnlyIn.mono (h : OnlyIn ps m m') (hsub : ∀ p ∈ ps, p ∈ qs) : OnlyIn qs m m' :=
  fun x hx => h x fun p hp => hx p (hsub p hp)

/-- A page apart from every page of `ps` is kept. -/
theorem OnlyIn.pageAgree (h : OnlyIn ps m m') {q : Nat} (hq : q % 4096 = 0)
    (hps : ∀ p ∈ ps, p % 4096 = 0 ∧ p ≠ q) : PageAgree m m' q := fun x hx₁ hx₂ =>
  h x fun p hp => by
    have := apart_of_aligned (hps p hp).1 hq (hps p hp).2
    omega

theorem onlyIn_store64 (m : Mem) {t l : Nat} (v : UInt64) (hl : l < 512) :
    OnlyIn [t] m (m.store64 (t + 8 * l) v) := fun x hx =>
  Mem.write_of_disjoint _ _ (by have := hx t List.mem_cons_self; omega)

theorem onlyIn_kfree {kend p : Nat} {k k' : Kmem} (h : kfree kend k p = .ok k') :
    OnlyIn [p] k.mem k'.mem := fun x hx =>
  (kfree_ok h).2.2.2.2 x (hx p List.mem_cons_self)

end Frame

section Pages

variable {m m' : Mem}

theorem mem_elim {o : Option Nat} {f : Nat → List Nat} {p : Nat} :
    p ∈ o.elim [] f ↔ ∃ c, o = some c ∧ p ∈ f c := by
  cases o <;> simp

/-- One level of `subPages`, the levels below left folded. -/
theorem subPages_succ (m : Mem) (d t : Nat) :
    subPages m (d + 1) t = ((List.range 512).flatMap fun i => (follow m t i).elim [] (subPages m d)) ++ [t] := by
  rw [subPages]

theorem mem_subPages_succ {d t p : Nat} :
    p ∈ subPages m (d + 1) t ↔ (∃ i < 512, ∃ c, follow m t i = some c ∧ p ∈ subPages m d c) ∨ p = t := by
  simp only [subPages, List.mem_append, List.mem_flatMap, List.mem_range, mem_elim,
    List.mem_singleton]

theorem self_mem_subPages (m : Mem) : ∀ d t, t ∈ subPages m d t
  | 0, _ => List.mem_singleton_self _
  | _ + 1, _ => mem_subPages_succ.mpr (.inr rfl)

theorem subPages_child {d t i c p : Nat} (hi : i < 512) (hc : follow m t i = some c)
    (hp : p ∈ subPages m d c) : p ∈ subPages m (d + 1) t :=
  mem_subPages_succ.mpr (.inl ⟨i, hi, c, hc, hp⟩)

/-- Agreement on the pages freed from `t` is agreement on each entry of `t`,
and on the pages freed under each child. -/
theorem agree_entries {d t : Nat} (h : ∀ p ∈ subPages m (d + 1) t, PageAgree m m' p) :
    (∀ i < 512, pteAt m' t i = pteAt m t i ∧ follow m' t i = follow m t i) ∧
      ∀ i < 512, ∀ c, follow m t i = some c → ∀ p ∈ subPages m d c, PageAgree m m' p := by
  have ht := h t (self_mem_subPages m (d + 1) t)
  exact ⟨fun i hi => ⟨pteAt_congr hi ht, follow_congr hi ht⟩,
    fun i hi c hc p hp => h p (subPages_child hi hc hp)⟩

/-- What the recursion reads lies in the pages it frees. -/
theorem subPages_congr (d : Nat) {t : Nat} (h : ∀ p ∈ subPages m d t, PageAgree m m' p) :
    subPages m' d t = subPages m d t := by
  induction d generalizing t with
  | zero => rfl
  | succ d ih =>
    obtain ⟨hent, hch⟩ := agree_entries h
    simp only [subPages]
    refine congrArg (· ++ [t]) (List.flatMap_congr fun i hi => ?_)
    have hi := List.mem_range.mp hi
    rw [(hent i hi).2]
    -- closed after `Option.elim` is gone: comparing the two sides' `subPages`
    -- first would unfold the list of entries
    cases hc : follow m t i with
    | none => simp only [Option.elim]
    | some c =>
      simp only [Option.elim]
      exact ih (hch i hi c hc)

theorem shaped_congr (d : Nat) {t : Nat} (h : ∀ p ∈ subPages m d t, PageAgree m m' p) :
    Shaped m' d t ↔ Shaped m d t := by
  induction d generalizing t with
  | zero =>
    have ht := h t (self_mem_subPages m 0 t)
    simp only [Shaped]
    exact forall₂_congr fun i hi => by rw [pteAt_congr hi ht]
  | succ d ih =>
    obtain ⟨hent, hch⟩ := agree_entries h
    simp only [Shaped]
    refine forall₂_congr fun i hi => forall_congr' fun c => ?_
    rw [(hent i hi).1, (hent i hi).2]
    exact imp_congr_right fun hc => and_congr_right' (ih (hch i hi c hc))

theorem hasLeaf_congr (d : Nat) {t : Nat} (h : ∀ p ∈ subPages m d t, PageAgree m m' p) :
    HasLeaf m' d t ↔ HasLeaf m d t := by
  induction d generalizing t with
  | zero =>
    have ht := h t (self_mem_subPages m 0 t)
    simp only [HasLeaf]
    exact exists_congr fun i => and_congr_right fun hi => by rw [pteAt_congr hi ht]
  | succ d ih =>
    obtain ⟨hent, hch⟩ := agree_entries h
    simp only [HasLeaf]
    refine exists_congr fun i => and_congr_right fun hi => exists_congr fun c => ?_
    rw [(hent i hi).2]
    exact and_congr_right fun hc => ih (hch i hi c hc)

theorem shaped_succ {d t : Nat} :
    Shaped m (d + 1) t ↔ ∀ i < 512, ∀ c, follow m t i = some c → IsPointer (pteAt m t i) ∧ Shaped m d c :=
  Iff.rfl

theorem follow_of_pteAt {t i : Nat} (h : pteAt m' t i = pteAt m t i) : follow m' t i = follow m t i := by
  simp only [follow, h]

theorem pagesBefore_succ (d t j : Nat) :
    pagesBefore m d t (j + 1) = pagesBefore m d t j ++ (follow m t j).elim [] (subPages m d) := by
  simp only [pagesBefore, List.range_succ, List.flatMap_append, List.flatMap_singleton]

theorem pagesBefore_add (d t j : Nat) : ∀ n, ∃ rest, pagesBefore m d t (j + n) = pagesBefore m d t j ++ rest
  | 0 => ⟨[], by rw [Nat.add_zero, List.append_nil]⟩
  | n + 1 => by
    obtain ⟨rest, h⟩ := pagesBefore_add d t j n
    exact ⟨rest ++ _, by rw [← Nat.add_assoc, pagesBefore_succ, h, List.append_assoc]⟩

/-- Under entry `j`, which points to `c`: the pages of `c` are distinct, and
apart from the pages before them and from `t`. -/
theorem child_apart {d t j c : Nat} (hnd : (subPages m (d + 1) t).Nodup) (hj : j < 512)
    (hc : follow m t j = some c) :
    (subPages m d c).Nodup ∧ ∀ p ∈ pagesBefore m d t j ++ [t], ∀ q ∈ subPages m d c, p ≠ q := by
  obtain ⟨rest, hrest⟩ := pagesBefore_add (m := m) d t (j + 1) (511 - j)
  have h512 : j + 1 + (511 - j) = 512 := by omega
  rw [h512, pagesBefore_succ d t j, hc] at hrest
  have hsplit : subPages m (d + 1) t =
      pagesBefore m d t j ++ (subPages m d c ++ (rest ++ [t])) := by
    simp only [subPages]
    rw [← pagesBefore, hrest]
    simp only [Option.elim, List.append_assoc]
  rw [hsplit] at hnd
  obtain ⟨-, hnd₂, hbefore⟩ := List.nodup_append.mp hnd
  obtain ⟨hcnd, -, hafter⟩ := List.nodup_append.mp hnd₂
  refine ⟨hcnd, fun p hp q hq => ?_⟩
  rcases List.mem_append.mp hp with hp | hp
  · exact hbefore p hp q (List.mem_append_left _ hq)
  · rw [List.mem_singleton.mp hp]
    exact (hafter q hq t (List.mem_append_right _ List.mem_cons_self)).symm

end Pages

/-! ## The recursion -/

section Recursion

variable {kend : Nat}

/-- Page `t` and all below it are aligned pages `kfree` accepts. -/
def Freeable (kend : Nat) (ps : List Nat) : Prop := ∀ p ∈ ps, p % 4096 = 0 ∧ kend ≤ p ∧ p < phystop

theorem kfree_freeable {t : Nat} {ps : List Nat} (h : Freeable kend ps) (ht : t ∈ ps) (k : Kmem) :
    ∃ k', kfree kend k t = .ok k' := by
  obtain ⟨hal, hlo, hhi⟩ := h t ht
  exact kfree_of_range hal hlo hhi k

/-- One level-0 page: each entry is left alone, or panics as a leaf. -/
theorem freewalk_post_zero {fuel t : Nat} {k : Kmem} (hshape : Shaped k.mem 0 t)
    (hfree : Freeable kend (subPages k.mem 0 t)) :
    Post (fun e => e = "freewalk: leaf" ∧ HasLeaf k.mem 0 t)
      (fun k' => ¬HasLeaf k.mem 0 t ∧ k'.freelist = (subPages k.mem 0 t).reverse ++ k.freelist ∧
        OnlyIn (subPages k.mem 0 t) k.mem k'.mem)
      (freewalk kend (fuel + 1) k t) := by
  simp only [freewalk]
  -- the loop changes nothing while the entries are invalid
  refine Post.bind (Post.foldlM_range' (I := fun j k' => k' = k ∧ ∀ i < j, ¬PteValid (pteAt k.mem t i))
    0 512 (fun j _ hj k' hI => ?_) ⟨rfl, fun _ h => absurd h (Nat.not_lt_zero _)⟩) ?_
  · obtain ⟨rfl, hbefore⟩ := hI
    rw [Nat.zero_add] at hj
    simp only [freewalkEntry]
    by_cases hv : PteValid (pteAt k'.mem t j)
    · rw [if_neg (hshape j hj hv), if_pos hv]
      exact ⟨rfl, j, hj, hv⟩
    · rw [if_neg (fun h => hv h.1), if_neg hv]
      exact ⟨rfl, fun i hi => (Nat.lt_succ_iff_lt_or_eq.mp hi).elim (hbefore i) (· ▸ hv)⟩
  · rintro k' ⟨rfl, hnone⟩
    obtain ⟨k'', hk''⟩ := kfree_freeable hfree (self_mem_subPages _ 0 t) k'
    rw [hk'']
    exact ⟨fun ⟨i, hi, hv⟩ => hnone i hi hv, (kfree_ok hk'').2.2.2.1, onlyIn_kfree hk''⟩

/-- What the loop over a page above level 0 keeps after `j` passes: the
pages under the first `j` entries are freed, in order, and nothing else is
written but them and `t`; the later entries are as they were, and no leaf
was under the earlier ones. -/
structure LoopInv (m : Mem) (fl : List Nat) (d t j : Nat) (k : Kmem) : Prop where
  freelist : k.freelist = (pagesBefore m d t j).reverse ++ fl
  frame : OnlyIn (pagesBefore m d t j ++ [t]) m k.mem
  later : ∀ i, j ≤ i → i < 512 → pteAt k.mem t i = pteAt m t i
  noLeaf : ∀ i < j, ∀ c, follow m t i = some c → ¬HasLeaf m d c

theorem LoopInv.start (m : Mem) (k : Kmem) (d t : Nat) (hk : k.mem = m) :
    LoopInv m k.freelist d t 0 k :=
  ⟨rfl, fun x _ => by rw [hk], fun _ _ _ => by rw [hk], fun _ h => absurd h (Nat.not_lt_zero _)⟩

/-- An entry that is not valid: the pass does nothing. -/
theorem LoopInv.skip {m : Mem} {fl : List Nat} {d t j : Nat} {k : Kmem} (h : LoopInv m fl d t j k)
    (hj : j < 512) (hv : ¬PteValid (pteAt m t j)) : LoopInv m fl d t (j + 1) k := by
  have hnone : follow m t j = none := by rw [follow, if_neg hv]
  have hpb : pagesBefore m d t (j + 1) = pagesBefore m d t j := by
    rw [pagesBefore_succ, hnone, Option.elim, List.append_nil]
  refine ⟨by rw [hpb]; exact h.freelist, by rw [hpb]; exact h.frame,
    fun i hi hi' => h.later i (by omega) hi', fun i hi c hc => ?_⟩
  rcases Nat.lt_succ_iff_lt_or_eq.mp hi with hi | rfl
  · exact h.noLeaf i hi c hc
  · rw [hnone] at hc
    cases hc

/-- The pass over a pointer entry: the child freed without a leaf, the
entry cleared. -/
theorem LoopInv.freed {m : Mem} {fl : List Nat} {d t j c : Nat} {k k' : Kmem}
    (h : LoopInv m fl d t j k) (hj : j < 512) (hc : follow m t j = some c)
    (hapart : ∀ p ∈ pagesBefore m d t j ++ [t], ∀ q ∈ subPages m d c, p ≠ q)
    (hal : ∀ p ∈ subPages m (d + 1) t, p % 4096 = 0)
    (hleaf : ¬HasLeaf m d c) (hfl : k'.freelist = (subPages m d c).reverse ++ k.freelist)
    (hframe : OnlyIn (subPages m d c) k.mem k'.mem) :
    LoopInv m fl d t (j + 1) (k'.setPte (t + 8 * j) 0) := by
  have hpb : pagesBefore m d t (j + 1) = pagesBefore m d t j ++ subPages m d c := by
    rw [pagesBefore_succ, hc, Option.elim]
  have ht := hal t (self_mem_subPages m (d + 1) t)
  -- `t` is no page of the child's, so the child kept it
  have htkeep : PageAgree k.mem k'.mem t := hframe.pageAgree ht fun q hq =>
    ⟨hal q (subPages_child hj hc hq), fun h' => hapart t (by simp) q hq h'.symm⟩
  refine ⟨?_, ?_, fun i hi hi' => ?_, fun i hi c' hc' => ?_⟩
  · rw [setPte_freelist, hfl, h.freelist, hpb, List.reverse_append, List.append_assoc]
  · refine ((h.frame.trans hframe).trans (onlyIn_store64 k'.mem 0 hj)).mono fun p hp => ?_
    simp only [List.mem_append, List.mem_singleton] at hp ⊢
    rw [hpb]
    simp only [List.mem_append]
    tauto
  · simp only [Kmem.setPte]
    rw [pteAt_store64_of_ne _ _ (by omega), pteAt_congr hi' htkeep, h.later i (by omega) hi']
  · rcases Nat.lt_succ_iff_lt_or_eq.mp hi with hi | rfl
    · exact h.noLeaf i hi c' hc'
    · rw [hc] at hc'
      cases hc'
      exact hleaf

theorem freewalk_post (d : Nat) {fuel t : Nat} {k : Kmem} (hfuel : d < fuel)
    (hshape : Shaped k.mem d t) (hnd : (subPages k.mem d t).Nodup)
    (hfree : Freeable kend (subPages k.mem d t)) :
    Post (fun e => e = "freewalk: leaf" ∧ HasLeaf k.mem d t)
      (fun k' => ¬HasLeaf k.mem d t ∧ k'.freelist = (subPages k.mem d t).reverse ++ k.freelist ∧
        OnlyIn (subPages k.mem d t) k.mem k'.mem)
      (freewalk kend fuel k t) := by
  -- the recursion of `freewalk` on the height of the tree below `t`
  induction d generalizing fuel t k with
  | zero =>
    obtain ⟨f, rfl⟩ : ∃ f, fuel = f + 1 := ⟨fuel - 1, by omega⟩
    exact freewalk_post_zero hshape hfree
  | succ d ih =>
    obtain ⟨f, rfl⟩ : ∃ f, fuel = f + 1 := ⟨fuel - 1, by omega⟩
    have hal : ∀ p ∈ subPages k.mem (d + 1) t, p % 4096 = 0 := fun p hp => (hfree p hp).1
    simp only [freewalk]
    refine Post.bind (P := LoopInv k.mem k.freelist d t (0 + 512))
      (Post.foldlM_range' 0 512 (fun j _ hj kj hinv => ?_) (LoopInv.start k.mem k d t rfl)) ?_
    · rw [Nat.zero_add] at hj
      simp only [freewalkEntry]
      rw [hinv.later j (Nat.le_refl j) hj]
      by_cases hv : PteValid (pteAt k.mem t j)
      · -- a valid entry above level 0 is a pointer, and its child is freed first
        have hc : follow k.mem t j = some (pte2pa (pteAt k.mem t j)).toNat := by rw [follow, if_pos hv]
        obtain ⟨hptr, hcs⟩ := hshape j hj _ hc
        obtain ⟨hcnd, hapart⟩ := child_apart hnd hj hc
        -- the child's pages are as they were before the loop
        have hagree : ∀ q ∈ subPages k.mem d (pte2pa (pteAt k.mem t j)).toNat,
            PageAgree k.mem kj.mem q := fun q hq =>
          hinv.frame.pageAgree (hal q (subPages_child hj hc hq)) fun p hp =>
            ⟨hal p (by
              rcases List.mem_append.mp hp with hp | hp
              · obtain ⟨rest, hrest⟩ := pagesBefore_add (m := k.mem) d t j (512 - j)
                rw [show j + (512 - j) = 512 by omega] at hrest
                exact List.mem_append_left _ (by rw [← pagesBefore, hrest]; exact List.mem_append_left _ hp)
              · rw [List.mem_singleton.mp hp]
                exact self_mem_subPages _ _ t), hapart p hp q hq⟩
        have hsub := subPages_congr d hagree
        rw [if_pos hptr]
        have hchild := @ih f _ kj (by omega) ((shaped_congr d hagree).mpr hcs)
          (by rw [hsub]; exact hcnd) (by rw [hsub]; exact fun p hp => hfree p (subPages_child hj hc hp))
        -- a leaf the child panics on is a leaf under `t`
        refine (hchild.imp (fun e he => ⟨he.1, j, hj, _, hc, (hasLeaf_congr d hagree).mp he.2⟩)
          fun _ h => h).bind fun k' hk' => ?_
        obtain ⟨hleaf, hfl, hframe⟩ := hk'
        rw [hsub] at hfl hframe
        exact Post.pure
          (hinv.freed hj hc hapart hal (fun h => hleaf ((hasLeaf_congr d hagree).mpr h)) hfl hframe)
      · rw [if_neg (fun h => hv h.1), if_neg hv]
        exact Post.pure (hinv.skip hj hv)
    · intro k' hinv
      obtain ⟨k'', hk''⟩ := kfree_freeable hfree (self_mem_subPages _ (d + 1) t) k'
      rw [hk'']
      refine ⟨fun hl => ?_, ?_, ?_⟩
      · obtain ⟨i, hi, c, hc, hl⟩ := hl
        exact hinv.noLeaf i hi c hc hl
      · rw [(kfree_ok hk'').2.2.2.1, hinv.freelist]
        simp only [subPages, List.reverse_append, List.reverse_singleton, List.singleton_append]
        rfl
      · exact (hinv.frame.trans (onlyIn_kfree hk'')).mono fun p hp => by
          simp only [List.mem_append, List.mem_singleton] at hp
          rcases hp with (hp | rfl) | rfl
          · simp only [subPages, List.mem_append]
            exact .inl hp
          · exact self_mem_subPages _ _ _
          · exact self_mem_subPages _ _ _

end Recursion

/-! ## The three levels of Sv39 -/

/-- The places of the tree in the order `freewalk` frees their pages: under
each root entry its level-0 pages, then its level-1 page; the root last. -/
def postOrder : List Node :=
  ((List.finRange 512).flatMap fun i => (List.finRange 512).map (Node.l0 i) ++ [Node.l1 i]) ++
    [Node.l2]

theorem mem_postOrder : ∀ a : Node, a ∈ postOrder
  | .l2 => by simp [postOrder]
  | .l1 i => by simp [postOrder]
  | .l0 i j => by simp [postOrder]

theorem nodup_postOrder : postOrder.Nodup := by
  have hsub : ∀ i : Fin 512, ((List.finRange 512).map (Node.l0 i) ++ [Node.l1 i]).Nodup := fun i =>
    List.nodup_append.mpr ⟨(List.nodup_finRange 512).map fun _ _ h => by cases h; rfl,
      List.nodup_singleton _, by simp⟩
  refine List.nodup_append.mpr ⟨List.nodup_flatMap.mpr ⟨fun i _ => hsub i, ?_⟩,
    List.nodup_singleton _, fun a ha b hb => ?_⟩
  swap
  · -- the root is under no root entry
    rw [List.mem_singleton.mp hb]
    simp only [List.mem_flatMap, List.mem_append, List.mem_map, List.mem_singleton] at ha
    obtain ⟨i, -, ⟨j, -, rfl⟩ | rfl⟩ := ha <;> simp
  -- the places under two root entries differ in their first index
  refine (List.nodup_finRange 512).pairwise_of_forall_ne fun i _ i' _ hne a ha ha' => ?_
  simp only [List.mem_append, List.mem_map, List.mem_finRange, true_and, List.mem_singleton] at ha ha'
  rcases ha with ⟨j, rfl⟩ | rfl <;> rcases ha' with ⟨j', h⟩ | h <;> cases h <;> exact hne rfl

theorem flatMap_range_finRange {β : Type} (f : Nat → List β) :
    (List.range 512).flatMap f = (List.finRange 512).flatMap fun i : Fin 512 => f i := by
  rw [← List.map_coe_finRange_eq_range, List.flatMap_map]

section Sv39

variable {m : Mem} {r : Nat}

theorem subPages_one (m : Mem) (c : Nat) :
    subPages m 1 c = (List.finRange 512).filterMap (fun j : Fin 512 => follow m c j) ++ [c] := by
  have hentry : ∀ j, (follow m c j).elim [] (subPages m 0) = (follow m c j).toList := fun j => by
    cases follow m c j <;> rfl
  rw [subPages_succ]
  simp only [hentry]
  rw [flatMap_range_finRange, List.filterMap_eq_flatMap_toList]

/-- `freewalk` frees the pages of the places of the tree, in post-order. -/
theorem subPages_two (m : Mem) (r : Nat) : subPages m 2 r = postOrder.filterMap (nodePage m r) := by
  -- the pages under root entry `i` are those of the places under it
  have hentry : ∀ i : Fin 512, (follow m r i).elim [] (subPages m 1) =
      ((List.finRange 512).map (Node.l0 i) ++ [Node.l1 i]).filterMap (nodePage m r) := fun i => by
    rw [List.filterMap_append, List.filterMap_map]
    cases hi : follow m r i with
    | none => simp [nodePage, hi, Function.comp_def]
    | some c => simp [nodePage, hi, Function.comp_def, subPages_one]
  rw [subPages_succ, flatMap_range_finRange]
  simp only [hentry, postOrder, List.filterMap_append, List.filterMap_flatMap]
  simp [nodePage]

theorem mem_subPages_two {p : Nat} : p ∈ subPages m 2 r ↔ IsTable m r p := by
  rw [subPages_two, List.mem_filterMap]
  exact ⟨fun ⟨a, _, ha⟩ => ⟨a, ha⟩, fun ⟨a, ha⟩ => ⟨a, mem_postOrder a, ha⟩⟩

/-- No page of the tree is freed twice. -/
theorem nodup_subPages_two (hinv : TreeInv m r) : (subPages m 2 r).Nodup := by
  rw [subPages_two]
  exact nodup_postOrder.filterMap fun a b t ha hb => hinv.inj a b t ha hb

theorem leafAt_ne_none {i j : Fin 512} {l : Nat} :
    leafAt m r i j l ≠ none ↔
      ∃ c c', follow m r i = some c ∧ follow m c j = some c' ∧ PteValid (pteAt m c' l) := by
  simp only [leafAt, nodePage]
  cases hi : follow m r i with
  | none => simp
  | some c =>
    cases hj : follow m c j with
    | none => simp [hj]
    | some c' => by_cases hv : PteValid (pteAt m c' l) <;> simp [hj, hv]

/-- A leaf under the root, for the three levels. -/
theorem hasLeaf_two_iff : HasLeaf m 2 r ↔ ∃ i j : Fin 512, ∃ l < 512, leafAt m r i j l ≠ none := by
  simp only [HasLeaf, leafAt_ne_none]
  constructor
  · rintro ⟨i, hi, c, hc, j, hj, c', hc', l, hl, hv⟩
    exact ⟨⟨i, hi⟩, ⟨j, hj⟩, l, hl, c, c', hc, hc', hv⟩
  · rintro ⟨i, j, l, hl, c, c', hc, hc', hv⟩
    exact ⟨i, i.isLt, c, hc, j, j.isLt, c', hc', l, hl, hv⟩

/-- Clearing leaves keeps the shape `freewalk` expects. -/
theorem shaped_of_cleared {m' : Mem} (hs : Shaped m 2 r) (hcl : EntriesCleared m m' r) :
    Shaped m' 2 r := by
  rw [shaped_succ]
  intro i hi c hc
  -- the root and the level-1 pages keep their entries: only level-0 ones are cleared
  have hkept : ∀ (a : Node) t, nodePage m r a = some t → (∀ i j, a ≠ .l0 i j) →
      ∀ l < 512, pteAt m' t l = pteAt m t l := fun a t ht hne l hl =>
    (hcl a t ht l hl).resolve_right fun ⟨⟨i, j, h⟩, _⟩ => hne i j h
  have hroot := hkept .l2 r rfl (fun _ _ h => Node.noConfusion h) i hi
  rw [follow_of_pteAt hroot] at hc
  obtain ⟨hptr, hc1⟩ := (shaped_succ.mp hs) i hi c hc
  refine ⟨by rw [hroot]; exact hptr, shaped_succ.mpr fun j hj c' hc' => ?_⟩
  have hl1 := hkept (.l1 ⟨i, hi⟩) c hc (fun _ _ h => Node.noConfusion h) j hj
  rw [follow_of_pteAt hl1] at hc'
  obtain ⟨hptr', hc0⟩ := (shaped_succ.mp hc1) j hj c' hc'
  refine ⟨by rw [hl1]; exact hptr', fun l hl hv => ?_⟩
  have hnode : nodePage m r (.l0 ⟨i, hi⟩ ⟨j, hj⟩) = some c' := by
    simp only [nodePage, hc, Option.bind_some, hc']
  rcases hcl _ c' hnode l hl with h | ⟨-, h⟩
  · rw [h] at hv ⊢
    exact hc0 l hl hv
  · rw [h] at hv
    exact absurd hv not_valid_zero

/-- A leaf under a root entry below `256` is what the map gives at its address. -/
theorem leafAt_eq_lookup {k : Kmem} (hinv : TreeInv k.mem r) (i j : Fin 512) (hi : i.val < 256)
    {l : Nat} (hl : l < 512) :
    ∃ w : UInt64, w < maxva ∧ w.toNat % 4096 = 0 ∧ k.lookup r w = leafAt k.mem r i j l := by
  have hw : (UInt64.ofNat (i.val * 2 ^ 30 + j.val * 2 ^ 21 + l * 2 ^ 12)).toNat =
      i.val * 2 ^ 30 + j.val * 2 ^ 21 + l * 2 ^ 12 := by
    rw [UInt64.toNat_ofNat']
    have := j.isLt
    exact Nat.mod_eq_of_lt (by omega)
  have hlt : UInt64.ofNat (i.val * 2 ^ 30 + j.val * 2 ^ 21 + l * 2 ^ 12) < maxva := by
    rw [UInt64.lt_iff_toNat_lt, hw, maxva_toNat]
    have := j.isLt
    omega
  refine ⟨_, hlt, by rw [hw]; omega, ?_⟩
  rw [lookup_eq_leafAt hinv hlt]
  -- the three indices of the address are `i`, `j`, `l`
  have h2 : px 2 (UInt64.ofNat (i.val * 2 ^ 30 + j.val * 2 ^ 21 + l * 2 ^ 12)) = i.val := by
    rw [px_toNat 2 (by omega), hw]
    have := j.isLt
    omega
  have h1 : px 1 (UInt64.ofNat (i.val * 2 ^ 30 + j.val * 2 ^ 21 + l * 2 ^ 12)) = j.val := by
    rw [px_toNat 1 (by omega), hw]
    have := j.isLt
    omega
  have h0 : px 0 (UInt64.ofNat (i.val * 2 ^ 30 + j.val * 2 ^ 21 + l * 2 ^ 12)) = l := by
    rw [px_toNat 0 (by omega), hw]
    have := j.isLt
    omega
  simp only [h2, h1, h0]

/-! An empty table: a zeroed root page, with no entry to follow. -/

theorem follow_of_zero (hzero : ∀ x, r ≤ x → x < r + 4096 → m x = 0) {i : Nat} (hi : i < 512) :
    follow m r i = none := by
  simp only [follow, pteAt_of_zero hi hzero, not_valid_zero, if_false]

theorem subPages_of_zero (hzero : ∀ x, r ≤ x → x < r + 4096 → m x = 0) (d : Nat) :
    subPages m (d + 1) r = [r] := by
  rw [subPages_succ, List.flatMap_eq_nil_iff.mpr fun i hi => by
    rw [follow_of_zero hzero (List.mem_range.mp hi)]
    rfl, List.nil_append]

theorem shaped_of_zero (hzero : ∀ x, r ≤ x → x < r + 4096 → m x = 0) (d : Nat) :
    Shaped m (d + 1) r := fun i hi c hc => by
  rw [follow_of_zero hzero hi] at hc
  cases hc

theorem not_hasLeaf_of_zero (hzero : ∀ x, r ≤ x → x < r + 4096 → m x = 0) (d : Nat) :
    ¬HasLeaf m (d + 1) r := fun ⟨i, hi, c, hc, _⟩ => by
  rw [follow_of_zero hzero hi] at hc
  cases hc

end Sv39

/-! ## Freeing a whole page table -/

section Whole

variable {kend r : Nat} {k : Kmem}

theorem phystop_aligned : phystop % 4096 = 0 := by decide

/-- A free page lies in `[end, PHYSTOP)`. -/
theorem FreeInv.bounds (hfree : FreeInv kend k) {p : Nat} (hp : p ∈ k.freelist) :
    kend ≤ p ∧ p < phystop := by
  have := hfree.range p hp
  omega

/-- The pages of a tree in `PtInv` whose pages lie in `[end, PHYSTOP)` can all
go to `kfree`, once each. -/
theorem freeable_subPages_two (hpt : PtInv kend k r)
    (hrange : ∀ t, IsTable k.mem r t → kend ≤ t ∧ t < phystop) :
    (subPages k.mem 2 r).Nodup ∧ Freeable kend (subPages k.mem 2 r) := by
  refine ⟨nodup_subPages_two hpt.tree, fun p hp => ?_⟩
  obtain ⟨a, ha⟩ := mem_subPages_two.mp hp
  exact ⟨hpt.tree.page_aligned ha, hrange p ⟨a, ha⟩⟩

/-- Pushing the pages of the tree keeps the free list a set of distinct pages
of `[end, PHYSTOP)`. -/
theorem FreeInv.push_tables (hpt : PtInv kend k r)
    (hrange : ∀ t, IsTable k.mem r t → kend ≤ t ∧ t < phystop) {fl : List Nat}
    (hfl : fl = (subPages k.mem 2 r).reverse ++ k.freelist) : FreeInv kend ⟨k.mem, fl⟩ := by
  obtain ⟨hnd, hfr⟩ := freeable_subPages_two hpt hrange
  have hmem : ∀ p, p ∈ fl ↔ p ∈ subPages k.mem 2 r ∨ p ∈ k.freelist := fun p => by
    rw [hfl, List.mem_append, List.mem_reverse]
  refine ⟨hpt.free.pos, ?_, fun p hp => ?_, fun p hp => ?_⟩
  · rw [hfl]
    refine List.nodup_append.mpr ⟨List.nodup_reverse.mpr hnd, hpt.free.nodup, fun p hp q hq => ?_⟩
    rintro rfl
    exact hpt.disj p hq (mem_subPages_two.mp (List.mem_reverse.mp hp))
  · rcases (hmem p).mp hp with hp | hp
    · exact (hfr p hp).1
    · exact hpt.free.aligned p hp
  · rcases (hmem p).mp hp with hp | hp
    · obtain ⟨hal, hlo, hhi⟩ := hfr p hp
      have := phystop_aligned
      exact ⟨hlo, by omega⟩
    · exact hpt.free.range p hp

/-- `freewalk_post` for a whole Sv39 tree in `PtInv`. -/
theorem freewalk_post_two (hpt : PtInv kend k r) (hshape : Shaped k.mem 2 r)
    (hrange : ∀ t, IsTable k.mem r t → kend ≤ t ∧ t < phystop) {fuel : Nat} (hfuel : 2 < fuel) :
    Post (fun e => e = "freewalk: leaf" ∧ HasLeaf k.mem 2 r)
      (fun k' => ¬HasLeaf k.mem 2 r ∧ k'.freelist = (subPages k.mem 2 r).reverse ++ k.freelist ∧
        OnlyIn (subPages k.mem 2 r) k.mem k'.mem)
      (freewalk kend fuel k r) :=
  have hfr := freeable_subPages_two hpt hrange
  freewalk_post 2 hfuel hshape hfr.1 hfr.2

/-- With no leaf left, `freewalk` returns with the tree's pages freed. -/
theorem freewalk_no_leaf (hpt : PtInv kend k r) (hshape : Shaped k.mem 2 r)
    (hrange : ∀ t, IsTable k.mem r t → kend ≤ t ∧ t < phystop) {fuel : Nat} (hfuel : 2 < fuel)
    (hnone : ∀ i j : Fin 512, ∀ l < 512, leafAt k.mem r i j l = none) :
    ∃ k', freewalk kend fuel k r = .ok k' ∧ FreeInv kend k' ∧
      k'.freelist = (subPages k.mem 2 r).reverse ++ k.freelist ∧
      ∀ x, OutsideTables k.mem r x → k'.mem x = k.mem x := by
  have hpost := freewalk_post_two hpt hshape hrange hfuel
  cases hx : freewalk kend fuel k r with
  | error e =>
    obtain ⟨i, j, l, hl, hne⟩ := hasLeaf_two_iff.mp (hpost.of_error hx).2
    exact absurd (hnone i j l hl) hne
  | ok k' =>
    obtain ⟨-, hfl, hframe⟩ := hpost.of_ok hx
    refine ⟨k', rfl, FreeInv.push_tables (k := k) hpt hrange hfl |>.of_freelist rfl, hfl,
      fun x hx => hframe x fun p hp => ?_⟩
    obtain ⟨a, ha⟩ := mem_subPages_two.mp hp
    exact hx p ⟨a, ha⟩

/-- `freewalk` on a page table in `PtInv` with the shape it expects, whose
pages lie in `[end, PHYSTOP)`: it panics with `"freewalk: leaf"` exactly when
a leaf is left, and otherwise returns with the pages of the tree pushed on
the free list in post-order, the allocator invariant kept (so no page freed
twice), and nothing written outside the tree's pages. -/
theorem freewalk_frees_tables (hpt : PtInv kend k r) (hshape : Shaped k.mem 2 r)
    (hrange : ∀ t, IsTable k.mem r t → kend ≤ t ∧ t < phystop) {fuel : Nat} (hfuel : 2 < fuel) :
    (freewalk kend fuel k r = .error "freewalk: leaf" ↔
      ∃ i j : Fin 512, ∃ l < 512, leafAt k.mem r i j l ≠ none) ∧
    ((∀ i j : Fin 512, ∀ l < 512, leafAt k.mem r i j l = none) →
      ∃ k', freewalk kend fuel k r = .ok k' ∧ FreeInv kend k' ∧
        k'.freelist = (postOrder.filterMap (nodePage k.mem r)).reverse ++ k.freelist ∧
        ∀ x, OutsideTables k.mem r x → k'.mem x = k.mem x) := by
  refine ⟨?_, fun hnone => ?_⟩
  · have hpost := freewalk_post_two hpt hshape hrange hfuel
    cases hx : freewalk kend fuel k r with
    | error e =>
      -- the only error is the leaf panic, and then a leaf is left
      obtain ⟨rfl, hleaf⟩ := hpost.of_error hx
      exact iff_of_true rfl (hasLeaf_two_iff.mp hleaf)
    | ok k' =>
      exact iff_of_false (fun h => by cases h) fun h => (hpost.of_ok hx).1 (hasLeaf_two_iff.mpr h)
  · obtain ⟨k', hk', hfree, hfl, hframe⟩ := freewalk_no_leaf hpt hshape hrange hfuel hnone
    exact ⟨k', hk', hfree, by rw [hfl, subPages_two], hframe⟩

/-- Unmapping keeps the pages of the tree. -/
theorem UnmapPost.isTable_iff {doFree : Bool} {a : UInt64} {stop : Nat} {k' : Kmem}
    (hpost : UnmapPost kend r k doFree a stop k') (t : Nat) :
    IsTable k'.mem r t ↔ IsTable k.mem r t :=
  ⟨fun ⟨c, hc⟩ => ⟨c, by rw [← hpost.nodes c]; exact hc⟩,
    fun ⟨c, hc⟩ => ⟨c, by rw [hpost.nodes c]; exact hc⟩⟩

/-- Unmapping every page below `stop` leaves no leaf in a tree that maps
nothing at or above `stop` and has no root entry beyond `MAXVA`. -/
theorem UnmapPost.no_leaf {doFree : Bool} {stop : Nat} {k' : Kmem}
    (hpost : UnmapPost kend r k doFree 0 stop k')
    (habove : ∀ w : UInt64, w < maxva → w.toNat % 4096 = 0 → stop ≤ w.toNat → k.lookup r w = none)
    (hhigh : ∀ i, 256 ≤ i → i < 512 → follow k.mem r i = none) :
    ∀ i j : Fin 512, ∀ l < 512, leafAt k'.mem r i j l = none := by
  have hlk : ∀ w : UInt64, w < maxva → w.toNat % 4096 = 0 → k'.lookup r w = none := fun w hw hwa => by
    rw [hpost.map w hw hwa]
    split_ifs with hin
    · rfl
    · exact habove w hw hwa (by simp only [UInt64.toNat_zero] at hin; omega)
  intro i j l hl
  -- a leaf below `MAXVA` is the lookup of an address; above it the root has no entry
  by_cases hi : i.val < 256
  · obtain ⟨w, hw, hwa, heq⟩ := leafAt_eq_lookup hpost.inv.tree i j hi hl
    rw [← heq, hlk w hw hwa]
  · have hf : follow k'.mem r i = none := by
      have hn := hpost.nodes (.l1 i)
      simp only [nodePage] at hn
      rw [hn]
      exact hhigh i (by omega) i.isLt
    simp only [leafAt, nodePage, hf, Option.bind_none]

/-- `kmemHi`'s table with its user page, as `freewalk` sees it: of the shape it
expects, its pages the root and the two pages `mappages` took, in post-order,
and no root entry beyond `MAXVA`. -/
theorem kmemHi_tree :
    ∃ k', mappages kmemHi 0x80000000 0 4096 0x80003000 (pteR ||| pteW ||| pteU) = .ok (0, k') ∧
      PtInv 0x80000000 k' 0x80000000 ∧ k'.freelist = [] ∧
      (∀ w, w < maxva → w.toNat % 4096 = 0 → k'.lookup 0x80000000 w =
        if w = 0 then some (pa2pte 0x80003000 ||| (pteR ||| pteW ||| pteU) ||| pteV) else none) ∧
      Shaped k'.mem 2 0x80000000 ∧
      subPages k'.mem 2 0x80000000 = [0x80002000, 0x80001000, 0x80000000] ∧
      ∀ i, 256 ≤ i → i < 512 → follow k'.mem 0x80000000 i = none := by
  obtain ⟨k', hm, hpt, hfl, hlk, -, -⟩ := kmemHi_mapped
  have hcheck : (match mappages kmemHi 0x80000000 0 4096 0x80003000 (pteR ||| pteW ||| pteU) with
      | .ok (_, k') => decide (Shaped k'.mem 2 0x80000000) &&
          decide (subPages k'.mem 2 0x80000000 = [0x80002000, 0x80001000, 0x80000000]) &&
          (List.range' 256 256).all fun i => (follow k'.mem 0x80000000 i).isNone
      | .error _ => false) = true := by decide +kernel
  rw [hm] at hcheck
  simp only [Bool.and_eq_true, decide_eq_true_eq, List.all_eq_true, List.mem_range'_1,
    Option.isNone_iff_eq_none] at hcheck
  obtain ⟨⟨hshape, hsub⟩, hhigh⟩ := hcheck
  exact ⟨k', hm, hpt, hfl, hlk, hshape, hsub, fun i h₁ h₂ => hhigh i ⟨h₁, by omega⟩⟩

/-- The pages of `kmemHi_tree`'s table lie in `[end, PHYSTOP)`. -/
theorem kmemHi_tables {k' : Kmem}
    (hsub : subPages k'.mem 2 0x80000000 = [0x80002000, 0x80001000, 0x80000000]) :
    ∀ t, IsTable k'.mem 0x80000000 t → 0x80000000 ≤ t ∧ t < phystop := fun t ht => by
  rw [← mem_subPages_two, hsub] at ht
  simp only [List.mem_cons, List.not_mem_nil, or_false] at ht
  rcases ht with rfl | rfl | rfl <;> decide

/-- `kmemHi`'s table: `freewalk` panics on its user page, a leaf; with that page
unmapped, it frees the two pages under the root and then the root, in
post-order, so that the root ends at the head of the free list. -/
theorem freewalk_frees_one_page :
    ∃ k', mappages kmemHi 0x80000000 0 4096 0x80003000 (pteR ||| pteW ||| pteU) = .ok (0, k') ∧
      freewalk 0x80000000 3 k' 0x80000000 = .error "freewalk: leaf" ∧
      ∃ k₁, uvmunmap 0x80000000 k' 0x80000000 0 1 false = .ok k₁ ∧
        ∃ k'', freewalk 0x80000000 3 k₁ 0x80000000 = .ok k'' ∧ FreeInv 0x80000000 k'' ∧
          k''.freelist = [0x80000000, 0x80001000, 0x80002000] := by
  obtain ⟨k', hm, hpt, hfl, hlk, hshape, hsub, hhigh⟩ := kmemHi_tree
  have h0 : k'.lookup 0x80000000 0 = some (pa2pte 0x80003000 ||| (pteR ||| pteW ||| pteU) ||| pteV) := by
    rw [hlk 0 (by decide) (by decide), if_pos rfl]
  -- the user page is the leaf `freewalk` finds
  have hleaf := lookup_eq_leafAt hpt.tree (show (0 : UInt64) < maxva by decide)
  rw [h0] at hleaf
  obtain ⟨hiff, -⟩ := freewalk_frees_tables hpt hshape (kmemHi_tables hsub) (by decide : 2 < 3)
  have hpanic := hiff.mpr ⟨_, _, _, px_lt 0 0, by rw [← hleaf]; exact Option.some_ne_none _⟩
  -- `uvmunmap` clears that leaf, and with it every leaf of the tree
  obtain ⟨k₁, hk₁, hpost⟩ := uvmunmap_spec hpt false (show (0 : UInt64).toNat % 4096 = 0 from rfl)
    (show (0 : UInt64).toNat + 4096 * (1 : UInt64).toNat ≤ maxva.toNat by decide)
    (fun w hwa _ hw => by
      obtain rfl := eq_zero_of_aligned_lt hwa (by simpa using hw)
      exact ⟨_, h0, by decide, fun h => absurd h Bool.false_ne_true⟩)
    (fun h => absurd h Bool.false_ne_true)
  have hnone := hpost.no_leaf (fun w hw hwa hge => by
    rw [hlk w hw hwa, if_neg fun h => by subst h; exact absurd hge (by decide)]) hhigh
  obtain ⟨-, hok⟩ := freewalk_frees_tables hpost.inv (shaped_of_cleared hshape hpost.cleared)
    (fun t ht => kmemHi_tables hsub t ((hpost.isTable_iff t).mp ht)) (by decide : 2 < 3)
  obtain ⟨k'', hk'', hfree, hfl'', -⟩ := hok hnone
  have hfl₁ : k₁.freelist = [] := List.eq_nil_iff_forall_not_mem.mpr fun p hp => by
    rcases (hpost.freed p).mp hp with h | ⟨h, -⟩
    · rw [hfl] at h
      exact List.not_mem_nil h
    · exact Bool.false_ne_true h
  -- the unmapped tree has the pages of the mapped one
  have hnodes : nodePage k₁.mem 0x80000000 = nodePage k'.mem 0x80000000 := funext hpost.nodes
  refine ⟨k', hm, hpanic, k₁, hk₁, k'', hk'', hfree, ?_⟩
  rw [hfl'', hfl₁, hnodes, ← subPages_two, hsub]
  rfl

/-- `uvmcreate`: `0`, with nothing changed, when no page is free; otherwise
the head of the free list, zeroed, with every other byte as it was: the root
of an empty page table in `PtInv`. -/
theorem uvmcreate_spec (hfree : FreeInv kend k) :
    ((uvmcreate k).1 = 0 ∧ (uvmcreate k).2 = k ∧ k.freelist = []) ∨
    ((uvmcreate k).1 ≠ 0 ∧ k.freelist = (uvmcreate k).1 :: (uvmcreate k).2.freelist ∧
      PtInv kend (uvmcreate k).2 (uvmcreate k).1 ∧
      (∀ x, (uvmcreate k).1 ≤ x → x < (uvmcreate k).1 + 4096 → (uvmcreate k).2.mem x = 0) ∧
      ∀ x, x < (uvmcreate k).1 ∨ (uvmcreate k).1 + 4096 ≤ x → (uvmcreate k).2.mem x = k.mem x) := by
  rcases hk : kalloc k with ⟨p, k₁⟩
  have hu : uvmcreate k = if p = 0 then (0, k₁) else (p, ⟨k₁.mem.memset p 0 4096, k₁.freelist⟩) := by
    simp only [uvmcreate, hk]
  rcases kalloc_cases hk with ⟨rfl, rfl, hnil⟩ | ⟨hfl, hjunk⟩
  · rw [hu, if_pos rfl]
    exact .inl ⟨rfl, rfl, hnil⟩
  · -- a free page lies above `end > 0`
    have hmem : p ∈ k.freelist := by rw [hfl]; exact List.mem_cons_self
    have hp : p ≠ 0 := by have := (hfree.bounds hmem).1; have := hfree.pos; omega
    rw [hu, if_neg hp]
    have hzero : ∀ x, p ≤ x → x < p + 4096 → k₁.mem.memset p 0 4096 x = 0 := fun x h₁ h₂ =>
      Mem.write_of_mem _ _ h₁ h₂
    have hnd := hfree.nodup
    rw [hfl] at hnd
    refine .inr ⟨hp, hfl, PtInv.of_zero ((hfree.kalloc hk).of_freelist rfl) (hfree.aligned p hmem)
      (Nat.pos_of_ne_zero hp) (List.nodup_cons.mp hnd).1 hzero, hzero, fun x hx => ?_⟩
    simp only [Mem.memset]
    rw [Mem.write_of_disjoint _ _ hx, kalloc_mem_outside hk hx]

/-- A table `uvmcreate` made goes back whole: `freewalk` returns its page, and
the free list is as it was before both calls. -/
theorem uvmcreate_freewalk (hfree : FreeInv kend k) (hp : (uvmcreate k).1 ≠ 0) {fuel : Nat}
    (hfuel : 2 < fuel) :
    ∃ k', freewalk kend fuel (uvmcreate k).2 (uvmcreate k).1 = .ok k' ∧ k'.freelist = k.freelist := by
  rcases uvmcreate_spec hfree with ⟨h0, -⟩ | ⟨-, hfl, hpt, hzero, -⟩
  · exact absurd h0 hp
  have hsub := subPages_of_zero hzero 1
  have hmem : (uvmcreate k).1 ∈ k.freelist := by rw [hfl]; exact List.mem_cons_self
  have hpost := @freewalk_post kend 2 fuel _ _ hfuel (shaped_of_zero hzero 1)
    (by rw [hsub]; exact List.nodup_singleton _) (by
      rw [hsub]
      intro q hq
      rw [List.mem_singleton.mp hq]
      exact ⟨hfree.aligned _ hmem, (hfree.bounds hmem).1, by have := (hfree.bounds hmem).2; omega⟩)
  cases hx : freewalk kend fuel (uvmcreate k).2 (uvmcreate k).1 with
  | error e => exact absurd (hpost.of_error hx).2 (not_hasLeaf_of_zero hzero 1)
  | ok k' =>
    obtain ⟨-, hfl', -⟩ := hpost.of_ok hx
    refine ⟨k', rfl, ?_⟩
    rw [hfl', hsub, hfl]
    rfl

/-- The first statement of `uvmfree`: `uvmunmap(pagetable, 0, PGROUNDUP(sz)/PGSIZE, 1)`
when `sz > 0`, which unmaps and frees the pages below `PGROUNDUP(sz)`; for
`sz = 0` that range is empty. -/
theorem uvmfree_unmap (hpt : PtInv kend k r) {sz : UInt64} (hsz : sz.toNat + 4095 < 2 ^ 38)
    (hmapped : ∀ w : UInt64, w.toNat % 4096 = 0 → w.toNat < (pgroundup sz).toNat →
      Unmappable kend k r true w)
    (hdist : ∀ w w' e e', w.toNat % 4096 = 0 → w'.toNat % 4096 = 0 →
      w.toNat < (pgroundup sz).toNat → w'.toNat < (pgroundup sz).toNat →
      k.lookup r w = some e → k.lookup r w' = some e' → pte2pa e = pte2pa e' → w = w') :
    ∃ k₁, (if sz > 0 then uvmunmap kend k r 0 (pgroundup sz / pgsize) true else pure k) = .ok k₁ ∧
      UnmapPost kend r k true 0 (pgroundup sz).toNat k₁ := by
  have htop : (pgroundup sz).toNat = (sz.toNat + 4095) / 4096 * 4096 := pgroundup_toNat (by omega)
  have h0 : (0 : UInt64).toNat = 0 := rfl
  by_cases hs : sz > 0
  · have hnp : (0 : UInt64).toNat + 4096 * (pgroundup sz / pgsize).toNat = (pgroundup sz).toNat := by
      rw [UInt64.toNat_div, pgsize_toNat, htop, h0]
      omega
    obtain ⟨k₁, hk, hp⟩ := uvmunmap_spec hpt true (show (0 : UInt64).toNat % 4096 = 0 from rfl)
      (show (0 : UInt64).toNat + 4096 * (pgroundup sz / pgsize).toNat ≤ maxva.toNat by
        rw [hnp, htop, maxva_toNat]
        omega)
      (fun w hwa _ hw => hmapped w hwa (hnp ▸ hw))
      (fun _ w w' e e' hwa hwa' _ hw _ hw' he he' hpa =>
        hdist w w' e e' hwa hwa' (hnp ▸ hw) (hnp ▸ hw') he he' hpa)
    rw [hnp] at hp
    exact ⟨k₁, by rw [if_pos hs]; exact hk, hp⟩
  · -- `sz = 0`: `PGROUNDUP(0) = 0` and nothing is unmapped
    have hsz0 : sz.toNat = 0 := by
      rw [gt_iff_lt, UInt64.lt_iff_toNat_lt, h0] at hs
      omega
    have hstop : (pgroundup sz).toNat = (0 : UInt64).toNat := by
      rw [htop, hsz0, h0]
    rw [hstop]
    exact ⟨k, by rw [if_neg hs]; rfl, UnmapPost.self hpt true 0⟩

/-- `uvmfree(pagetable, sz)` on a page table whose leaves map the user pages
below `PGROUNDUP(sz)`, each to a page of its own, with no leaf above and no
root entry beyond `MAXVA`: it returns, the allocator invariant kept, and the
free list gains exactly the user pages and the pages of the tree. -/
theorem uvmfree_frees_all (hpt : PtInv kend k r) (hshape : Shaped k.mem 2 r)
    (hrange : ∀ t, IsTable k.mem r t → kend ≤ t ∧ t < phystop) {sz : UInt64}
    (hsz : sz.toNat + 4095 < 2 ^ 38)
    (hmapped : ∀ w : UInt64, w.toNat % 4096 = 0 → w.toNat < (pgroundup sz).toNat →
      Unmappable kend k r true w)
    (hdist : ∀ w w' e e', w.toNat % 4096 = 0 → w'.toNat % 4096 = 0 →
      w.toNat < (pgroundup sz).toNat → w'.toNat < (pgroundup sz).toNat →
      k.lookup r w = some e → k.lookup r w' = some e' → pte2pa e = pte2pa e' → w = w')
    (habove : ∀ w : UInt64, w < maxva → w.toNat % 4096 = 0 → (pgroundup sz).toNat ≤ w.toNat →
      k.lookup r w = none)
    (hhigh : ∀ i, 256 ≤ i → i < 512 → follow k.mem r i = none) {depth : Nat} (hdepth : 2 < depth) :
    ∃ k', uvmfree kend depth k r sz = .ok k' ∧ FreeInv kend k' ∧
      ∀ p, p ∈ k'.freelist ↔ p ∈ k.freelist ∨ IsTable k.mem r p ∨
        ∃ w e, w.toNat % 4096 = 0 ∧ w.toNat < (pgroundup sz).toNat ∧ k.lookup r w = some e ∧
          p = (pte2pa e).toNat := by
  obtain ⟨k₁, hk₁, hpost⟩ := uvmfree_unmap hpt hsz hmapped hdist
  -- `freewalk` then finds the tree with its leaves cleared and nothing else changed
  obtain ⟨k', hk', hfree, hfl, -⟩ := freewalk_no_leaf hpost.inv (shaped_of_cleared hshape hpost.cleared)
    (fun t ht => hrange t ((hpost.isTable_iff t).mp ht)) hdepth (hpost.no_leaf habove hhigh)
  refine ⟨k', ?_, hfree, fun p => ?_⟩
  · -- the `do` block runs `freewalk` in both branches of the test on `sz`
    rw [uvmfree]
    split_ifs at hk₁ ⊢ <;> rw [hk₁] <;> exact hk'
  · rw [hfl, List.mem_append, List.mem_reverse, mem_subPages_two, hpost.isTable_iff, hpost.freed p]
    constructor
    · rintro (h | h | ⟨-, w, e, hwa, -, hw, he, hp⟩)
      · exact .inr (.inl h)
      · exact .inl h
      · exact .inr (.inr ⟨w, e, hwa, hw, he, hp⟩)
    · rintro (h | h | ⟨w, e, hwa, hw, he, hp⟩)
      · exact .inr (.inl h)
      · exact .inl h
      · exact .inr (.inr ⟨rfl, w, e, hwa, Nat.zero_le _, hw, he, hp⟩)

/-- `uvmfree` of `kmemHi`'s table with its one user page frees the user frame
and the table's three pages. -/
theorem uvmfree_frees_one_page :
    ∃ k', mappages kmemHi 0x80000000 0 4096 0x80003000 (pteR ||| pteW ||| pteU) = .ok (0, k') ∧
      ∃ k'', uvmfree 0x80000000 3 k' 0x80000000 4096 = .ok k'' ∧ FreeInv 0x80000000 k'' ∧
        ∀ p, p ∈ k''.freelist ↔ p = 0x80000000 ∨ p = 0x80001000 ∨ p = 0x80002000 ∨ p = 0x80003000 := by
  obtain ⟨k', hm, hpt, hfl, hlk, hshape, hsub, hhigh⟩ := kmemHi_tree
  have htop : (pgroundup (4096 : UInt64)).toNat = 4096 := by decide
  -- below `PGROUNDUP(4096)` the one aligned address is `0`
  have hw0 : ∀ w : UInt64, w.toNat % 4096 = 0 → w.toNat < (pgroundup 4096).toNat → w = 0 :=
    fun w hwa hw => eq_zero_of_aligned_lt hwa (htop ▸ hw)
  have h0 : k'.lookup 0x80000000 0 = some (pa2pte 0x80003000 ||| (pteR ||| pteW ||| pteU) ||| pteV) := by
    rw [hlk 0 (by decide) (by decide), if_pos rfl]
  have hE : pte2pa (pa2pte 0x80003000 ||| (pteR ||| pteW ||| pteU) ||| pteV) = 0x80003000 := by decide
  have hnot : ¬IsTable k'.mem 0x80000000 0x80003000 := by
    rw [← mem_subPages_two, hsub]
    decide
  obtain ⟨k'', hk'', hfree, hmem⟩ := uvmfree_frees_all hpt hshape (kmemHi_tables hsub)
    (by decide : (4096 : UInt64).toNat + 4095 < 2 ^ 38)
    (fun w hwa hw => by
      obtain rfl := hw0 w hwa hw
      refine ⟨_, h0, by decide, fun _ => ?_⟩
      rw [hE, hfl]
      exact ⟨by decide, by decide, List.not_mem_nil, hnot⟩)
    (fun w w' _ _ hwa hwa' hw hw' _ _ _ => (hw0 w hwa hw).trans (hw0 w' hwa' hw').symm)
    (fun w hw hwa hge => by
      rw [hlk w hw hwa, if_neg fun h => by subst h; rw [htop] at hge; exact absurd hge (by decide)])
    hhigh (by decide : 2 < 3)
  refine ⟨k', hm, k'', hk'', hfree, fun p => ?_⟩
  rw [hmem p, hfl, ← mem_subPages_two, hsub]
  simp only [List.mem_cons, List.not_mem_nil, or_false, false_or]
  constructor
  · rintro ((h | h | h) | ⟨w, e, hwa, hw, he, rfl⟩)
    · exact .inr (.inr (.inl h))
    · exact .inr (.inl h)
    · exact .inl h
    · -- the one user frame
      obtain rfl := hw0 w hwa hw
      rw [h0] at he
      cases he
      exact .inr (.inr (.inr (by rw [hE]; rfl)))
  · rintro (h | h | h | rfl)
    · exact .inl (.inr (.inr h))
    · exact .inl (.inr (.inl h))
    · exact .inl (.inl h)
    · exact .inr ⟨0, _, rfl, by rw [htop]; decide, h0, by rw [hE]; rfl⟩

/-- One free page at `KERNBASE`: `uvmcreate` takes it and `freewalk` gives it back. -/
theorem uvmcreate_freewalk_one :
    FreeInv 0x80000000 ⟨fun _ => 0, [0x80000000]⟩ ∧ (uvmcreate ⟨fun _ => 0, [0x80000000]⟩).1 ≠ 0 ∧
      ∃ k', freewalk 0x80000000 3 (uvmcreate ⟨fun _ => 0, [0x80000000]⟩).2
        (uvmcreate ⟨fun _ => 0, [0x80000000]⟩).1 = .ok k' ∧ k'.freelist = [0x80000000] := by
  have hfree : FreeInv 0x80000000 ⟨fun _ => 0, [0x80000000]⟩ :=
    ⟨by decide, by decide, by decide, by decide⟩
  have hp : (uvmcreate ⟨fun _ => 0, [0x80000000]⟩).1 ≠ 0 := by decide
  exact ⟨hfree, hp, uvmcreate_freewalk hfree hp (by decide)⟩

end Whole

end Xv6.Kernel
