import Xv6.Kernel.Vm.Riscv

/-!
# The physical page allocator

`kalloc.c`. Physical memory is one byte map; `kmem.freelist` is kept as the
list of its pages, head first. `kfree` fills a page with junk, stores the old
head in its first word (`r->next`) and pushes it; `kalloc` pops the head and
fills it with junk.

`FreeInv` is what every state of the allocator keeps: the free pages are
distinct, page-aligned, and lie in `[end, PHYSTOP)`, where `kfree` accepts
them. `kalloc_cases` says all a `kalloc` can do, and `FreeInv.kalloc`,
`FreeInv.kfree` that both keep the invariant.
-/

namespace Xv6.Kernel

open Xv6.Lib

/-- Physical memory and `kmem.freelist`. -/
structure Kmem where
  mem : Mem
  freelist : List Nat

/-- `kfree(pa)`; `kend` is the address `end` the linker gives. -/
def kfree (kend : Nat) (k : Kmem) (pa : Nat) : Except String Kmem :=
  if pa % 4096 ≠ 0 ∨ pa < kend ∨ phystop ≤ pa then .error "kfree"
  else
    -- junk, then `r->next = kmem.freelist`
    let mem := (k.mem.memset pa 1 4096).store64 pa (UInt64.ofNat (k.freelist.headD 0))
    .ok ⟨mem, pa :: k.freelist⟩

/-- `kalloc()`: the head of the free list, filled with junk; `0` when the list is empty. -/
def kalloc (k : Kmem) : Nat × Kmem :=
  match k.freelist with
  | [] => (0, k)
  | r :: rest => (r, ⟨k.mem.memset r 5 4096, rest⟩)

/-- The loop of `freerange`: `n` pages from `p` on. -/
def freerangeLoop (kend : Nat) : Nat → Kmem → Nat → Except String Kmem
  | 0, k, _ => .ok k
  | n + 1, k, p =>
    match kfree kend k p with
    | .error e => .error e
    | .ok k => freerangeLoop kend n k (p + 4096)

/-- `kinit()`: `freerange(end, PHYSTOP)`, every whole page from `PGROUNDUP(end)`. -/
def kinit (kend : Nat) (k : Kmem) : Except String Kmem :=
  let p := (kend + 4095) / 4096 * 4096
  freerangeLoop kend ((phystop - p) / 4096) k p

/-- The free list is a set of distinct pages of `[end, PHYSTOP)`. -/
structure FreeInv (kend : Nat) (k : Kmem) : Prop where
  pos : 0 < kend
  nodup : k.freelist.Nodup
  aligned : ∀ p ∈ k.freelist, p % 4096 = 0
  range : ∀ p ∈ k.freelist, kend ≤ p ∧ p + 4096 ≤ phystop

/-- All a `kalloc` can do: find the list empty, or pop its head and junk it. -/
theorem kalloc_cases {k k' : Kmem} {p : Nat} (h : kalloc k = (p, k')) :
    (p = 0 ∧ k' = k ∧ k.freelist = []) ∨
    (k.freelist = p :: k'.freelist ∧ k'.mem = k.mem.memset p 5 4096) := by
  unfold kalloc at h
  split at h
  · cases h
    exact .inl ⟨rfl, rfl, by assumption⟩
  · cases h
    exact .inr ⟨by assumption, rfl⟩

/-- A page `kalloc` returns is a free one, and nonzero. -/
theorem kalloc_mem {k k' : Kmem} {p : Nat} (h : kalloc k = (p, k')) (hp : p ≠ 0) :
    p ∈ k.freelist ∧ k.freelist = p :: k'.freelist := by
  rcases kalloc_cases h with ⟨rfl, -, -⟩ | ⟨hl, -⟩
  · exact absurd rfl hp
  · exact ⟨by rw [hl]; exact List.mem_cons_self, hl⟩

/-- `kalloc` writes to the page it returns and nowhere else. -/
theorem kalloc_mem_outside {k k' : Kmem} {p : Nat} (h : kalloc k = (p, k')) {x : Nat}
    (hx : x < p ∨ p + 4096 ≤ x) : k'.mem x = k.mem x := by
  rcases kalloc_cases h with ⟨-, rfl, -⟩ | ⟨-, hm⟩
  · rfl
  · rw [hm]
    exact Mem.write_of_disjoint _ _ hx

theorem FreeInv.kalloc {kend : Nat} {k k' : Kmem} {p : Nat} (hinv : FreeInv kend k)
    (h : kalloc k = (p, k')) : FreeInv kend k' := by
  rcases kalloc_cases h with ⟨-, rfl, -⟩ | ⟨hl, -⟩
  · exact hinv
  · have hsub : ∀ q ∈ k'.freelist, q ∈ k.freelist := fun q hq => by
      rw [hl]
      exact List.mem_cons_of_mem _ hq
    refine ⟨hinv.pos, ?_, fun q hq => hinv.aligned q (hsub q hq), fun q hq => hinv.range q (hsub q hq)⟩
    have := hinv.nodup
    rw [hl] at this
    exact this.of_cons

/-- The invariant reads the free list alone. -/
theorem FreeInv.of_freelist {kend : Nat} {k k' : Kmem} (hinv : FreeInv kend k)
    (h : k'.freelist = k.freelist) : FreeInv kend k' := by
  refine ⟨hinv.pos, ?_, fun p hp => hinv.aligned p ?_, fun p hp => hinv.range p ?_⟩ <;>
    first | rw [h]; exact hinv.nodup | rwa [h] at hp

theorem kfree_ok {kend : Nat} {k k' : Kmem} {pa : Nat} (h : kfree kend k pa = .ok k') :
    pa % 4096 = 0 ∧ kend ≤ pa ∧ pa < phystop ∧ k'.freelist = pa :: k.freelist ∧
      ∀ x, x < pa ∨ pa + 4096 ≤ x → k'.mem x = k.mem x := by
  unfold kfree at h
  split_ifs at h with hbad
  cases h
  refine ⟨by omega, by omega, by omega, rfl, fun x hx => ?_⟩
  simp only [Mem.store64, Mem.memset]
  rw [Mem.write_of_disjoint _ _ (by omega), Mem.write_of_disjoint _ _ (by omega)]

theorem FreeInv.kfree {kend : Nat} {k k' : Kmem} {pa : Nat} (hinv : FreeInv kend k)
    (h : kfree kend k pa = .ok k') (hfree : pa ∉ k.freelist) : FreeInv kend k' := by
  obtain ⟨haligned, hlo, hhi, hl, -⟩ := kfree_ok h
  have hphy : phystop % 4096 = 0 := by decide
  refine ⟨hinv.pos, ?_, fun q hq => ?_, fun q hq => ?_⟩
  · rw [hl]
    exact List.nodup_cons.mpr ⟨hfree, hinv.nodup⟩
  · rw [hl] at hq
    rcases List.mem_cons.mp hq with rfl | hq
    · exact haligned
    · exact hinv.aligned q hq
  · rw [hl] at hq
    rcases List.mem_cons.mp hq with rfl | hq
    · exact ⟨hlo, by omega⟩
    · exact hinv.range q hq

end Xv6.Kernel
