import Mathlib.Data.List.Sort
import Xv6.Lib.Blocks
import Xv6.Lib.Cycle
import Xv6.Lib.Reach

/-!
# The user-space allocator (`user/umalloc.c`)

The allocator of Kernighan and Ritchie: the free blocks are kept on a ring
through the static header `base`, in increasing order of address. `free`
walks the ring to the block after which the freed block belongs and joins it
to its neighbours when they touch; `malloc` walks the ring from `freep`,
takes the first block large enough (all of it, or its tail end), and calls
`morecore` for more memory from `sbrk` when it has gone round once.

Addresses count headers from `&base`, which is `0`; `sbrk` hands out the heap
`[start, brk)` above it, one contiguous piece after another, or fails. The
memory is a header at every address, of which the allocator reads only those
at block starts. The loops have no bound in C; here each is given one that,
on every heap the allocator can reach, it never uses up.
-/

namespace Xv6.User

open Xv6.Lib

/-- `union header`: the link to the next free block and the block's size, in headers. -/
structure Header where
  ptr : Nat
  size : Nat
  deriving DecidableEq, Repr

/-- `sizeof(Header)`: a pointer and a `uint`, padded to the alignment of `long`. -/
def headerSize : Nat := 16

/-- `nunits` for a request of `nbytes`: the header and the bytes, in headers. -/
def nunitsOf (nbytes : Nat) : Nat := (nbytes + headerSize - 1) / headerSize + 1

/-- The allocator's memory and `freep` (`none` while null), the break `sbrk`
moves, and the two things its properties are stated over: where the heap
starts, and the blocks `malloc` returned that `free` has not taken back. -/
structure Heap where
  mem : Nat → Header
  freep : Option Nat
  brk : Nat
  start : Nat
  live : List Nat

namespace Heap

/-- Write the header at `a`. -/
def set (h : Heap) (a : Nat) (v : Header) : Heap := { h with mem := Function.update h.mem a v }

/-- The loop of `free`, for at most `k` blocks from `p`: the block after which
`bp` belongs.
`for (p = freep; !(bp > p && bp < p->s.ptr); p = p->s.ptr)
   if (p >= p->s.ptr && (bp > p || bp < p->s.ptr)) break;` -/
def freeScan (mem : Nat → Header) (bp : Nat) : Nat → Nat → Option Nat
  | _, 0 => none
  | p, k + 1 =>
    if bp > p ∧ bp < (mem p).ptr then some p
    else if p ≥ (mem p).ptr ∧ (bp > p ∨ bp < (mem p).ptr) then some p
    else freeScan mem bp (mem p).ptr k

/-- `free(ap)`: `none` if its loop would not stop. -/
def free (h : Heap) (ap : Nat) : Option Heap := do
  let bp := ap - 1
  let f ← h.freep
  let p ← freeScan h.mem bp f (h.brk + 1)
  let n := (h.mem p).ptr
  -- join the upper neighbour
  let h := if bp + (h.mem bp).size = n then
      h.set bp ⟨(h.mem n).ptr, (h.mem bp).size + (h.mem n).size⟩
    else h.set bp ⟨n, (h.mem bp).size⟩
  -- join the lower neighbour
  let h := if p + (h.mem p).size = bp then
      h.set p ⟨(h.mem bp).ptr, (h.mem p).size + (h.mem bp).size⟩
    else h.set p ⟨bp, (h.mem p).size⟩
  pure { h with freep := some p }

/-- `morecore(nu)`: `sbrk` fails (`grow = false`), or hands out at least 4096
headers at the break, which `free` puts on the ring; the result is `freep`,
`none` for the null `morecore` returns on failure. -/
def morecore (h : Heap) (nu : Nat) (grow : Bool) : Option (Option Nat × Heap) :=
  let nu := if nu < 4096 then 4096 else nu
  if grow then
    let hp := h.brk
    let h := { h.set hp ⟨(h.mem hp).ptr, nu⟩ with brk := h.brk + nu }
    (h.free (hp + 1)).map fun h => (h.freep, h)
  else some (none, h)

/-- The loop of `malloc` at `prevp` and its successor `p`, for at most `k`
blocks, with `more` the call `morecore(nunits)`: the pointer returned (`0`
for null) and the heap. -/
def mallocLoop (more : Heap → Option (Option Nat × Heap)) (nunits : Nat) :
    Heap → Nat → Nat → Nat → Option (Nat × Heap)
  | _, _, _, 0 => none
  | h, prevp, p, k + 1 =>
    if (h.mem p).size ≥ nunits then
      if (h.mem p).size = nunits then
        -- the whole block: `prevp->s.ptr = p->s.ptr`
        let h₁ : Heap := { h.set prevp ⟨(h.mem p).ptr, (h.mem prevp).size⟩ with freep := some prevp }
        some (p + 1, h₁)
      else
        -- its tail end: `p->s.size -= nunits; p += p->s.size; p->s.size = nunits`
        let h₁ := h.set p ⟨(h.mem p).ptr, (h.mem p).size - nunits⟩
        let q := p + (h₁.mem p).size
        let h₂ : Heap := { h₁.set q ⟨(h₁.mem q).ptr, nunits⟩ with freep := some prevp }
        some (q + 1, h₂)
    else if h.freep = some p then
      match more h with
      | none => none
      | some (none, h) => some (0, h)
      | some (some p, h) => mallocLoop more nunits h p (h.mem p).ptr k
    else mallocLoop more nunits h p (h.mem p).ptr k

/-- `malloc(nbytes)`: the first call makes `base` the ring of one element. -/
def malloc (h : Heap) (nbytes : Nat) (grow : Bool) : Option (Nat × Heap) :=
  let nunits := nunitsOf nbytes
  let h₀ : Heap := { h.set 0 ⟨0, 0⟩ with freep := some 0 }
  let (h, prevp) := match h.freep with
    | none => (h₀, 0)
    | some f => (h, f)
  mallocLoop (fun h => h.morecore nunits grow) nunits h prevp (h.mem prevp).ptr
    (2 * (h.brk + nunits + 4096 + 2))

end Heap

/-- The calls of a program: `malloc`, with whether `sbrk` would succeed, and `free`. -/
inductive UmOp where
  | malloc (nbytes : Nat) (grow : Bool)
  | free (ap : Nat)

namespace Heap

/-- One call, with the blocks handed out recorded. -/
def step (h : Heap) : UmOp → Option Heap
  | .malloc nbytes grow => (h.malloc nbytes grow).map fun r =>
      if r.1 = 0 then r.2 else { r.2 with live := (r.1 - 1) :: r.2.live }
  | .free ap => (h.free ap).map fun h' => { h' with live := h'.live.erase (ap - 1) }

/-- What a program promises: requests of at most `2^31 - 32` bytes, so that
`nu * sizeof(Header)` fits the `int` of `sbrk`, and `free` only of a live
block. -/
def Allowed (h : Heap) : UmOp → Prop
  | .malloc nbytes _ => nbytes ≤ 2 ^ 31 - 32
  | .free ap => 0 < ap ∧ ap - 1 ∈ h.live

end Heap

/-- A program's calls on the allocator, from a heap of nothing. -/
def umSys : TSys Heap UmOp where
  init h := h.freep = none ∧ h.live = [] ∧ 0 < h.start ∧ h.brk = h.start
  step h op h' := h.Allowed op ∧ h.step op = some h'

namespace Heap

/-- The link of the header at `c`: `c->s.ptr`. -/
def link (h : Heap) (c : Nat) : Nat := (h.mem c).ptr

@[simp] theorem set_mem (h : Heap) (a : Nat) (v : Header) :
    (h.set a v).mem = Function.update h.mem a v := rfl

@[simp] theorem set_freep (h : Heap) (a : Nat) (v : Header) : (h.set a v).freep = h.freep := rfl

@[simp] theorem set_brk (h : Heap) (a : Nat) (v : Header) : (h.set a v).brk = h.brk := rfl

@[simp] theorem set_start (h : Heap) (a : Nat) (v : Header) : (h.set a v).start = h.start := rfl

/-- The test that ends the loop of `free` at `p`. -/
def FreeStop (mem : Nat → Header) (bp p : Nat) : Prop :=
  (bp > p ∧ bp < (mem p).ptr) ∨ (p ≥ (mem p).ptr ∧ (bp > p ∨ bp < (mem p).ptr))

instance (mem : Nat → Header) (bp p : Nat) : Decidable (FreeStop mem bp p) := by
  unfold FreeStop
  infer_instance

theorem freeScan_succ (mem : Nat → Header) (bp p k : Nat) :
    freeScan mem bp p (k + 1) =
      if FreeStop mem bp p then some p else freeScan mem bp (mem p).ptr k := by
  rw [freeScan]
  by_cases h1 : bp > p ∧ bp < (mem p).ptr
  · rw [if_pos h1, if_pos (show FreeStop mem bp p from .inl h1)]
  · rw [if_neg h1]
    by_cases h2 : p ≥ (mem p).ptr ∧ (bp > p ∨ bp < (mem p).ptr)
    · rw [if_pos h2, if_pos (show FreeStop mem bp p from .inr h2)]
    · rw [if_neg h2, if_neg (show ¬ FreeStop mem bp p from not_or.mpr ⟨h1, h2⟩)]

end Heap

/-! ## The free ring

The free blocks `F` and the blocks in use `L` lie apart in `[start, brk)`;
`base` and `F` form the ring: each link leads to the next free block up, the
last back to `base`; and no free block ends where another begins. -/

/-- The free ring `0 :: F` of `h`, with the blocks `L` in use. -/
structure FreeRing (h : Heap) (F L : List Nat) : Prop where
  layout : Layout (fun a => (h.mem a).size) h.start h.brk (F ++ L)
  links : ∀ c ∈ 0 :: F, NextUp F 0 c (h.mem c).ptr
  gaps : ∀ a ∈ F, ∀ b ∈ F, a + (h.mem a).size ≠ b
  base : (h.mem 0).size = 0
  freep : ∃ f ∈ 0 :: F, h.freep = some f
  start_pos : 0 < h.start
  start_le : h.start ≤ h.brk

namespace FreeRing

variable {h : Heap} {F L : List Nat}

theorem pos_of_mem (hr : FreeRing h F L) {a : Nat} (ha : a ∈ F ++ L) : 0 < a :=
  lt_of_lt_of_le hr.start_pos (hr.layout.lo_le a ha)

/-- The ring is `base` and the free blocks in increasing order. -/
theorem cycle (hr : FreeRing h F L) : ∃ S : List Nat, S.Perm F ∧ (0 :: S).Pairwise (· < ·) ∧
    IsCycle h.link (0 :: S) := by
  let S := F.insertionSort (· ≤ ·)
  have hperm : S.Perm F := List.perm_insertionSort _ F
  have hnd : S.Nodup := hperm.nodup_iff.mpr (List.nodup_append.mp hr.layout.nodup).1
  have hsorted : S.Pairwise (· < ·) :=
    ((List.pairwise_insertionSort (· ≤ ·) F).and hnd).imp fun h => lt_of_le_of_ne h.1 h.2
  have hs : (0 :: S).Pairwise (· < ·) := by
    refine List.pairwise_cons.mpr ⟨fun a ha => ?_, hsorted⟩
    exact hr.pos_of_mem (List.mem_append_left L (hperm.mem_iff.mp ha))
  refine ⟨S, hperm, hs, isCycle_of_nextUp hs fun c hc => ?_⟩
  have hc' : c ∈ 0 :: F := by
    rcases List.mem_cons.mp hc with rfl | hc
    · exact List.mem_cons_self
    · exact List.mem_cons_of_mem _ (hperm.mem_iff.mp hc)
  exact (hr.links c hc').congr fun x _ => hperm.mem_iff.symm

end FreeRing

/-! ## `free` -/

section Free

variable {h : Heap} {F L : List Nat} {bp p : Nat}

/-- Where `free` puts the block `bp` in use: after `p`, the greatest free
block below it (or `base`). -/
structure FreeSpot (h : Heap) (F L : List Nat) (bp p : Nat) : Prop where
  ring : FreeRing h F L
  used : bp ∈ L
  mem : p ∈ 0 :: F
  lt : p < bp
  max : ∀ x ∈ F, x < bp → x ≤ p

theorem FreeRing.exists_freeSpot (hr : FreeRing h F L) (hbp : bp ∈ L) :
    ∃ p, FreeSpot h F L bp p := by
  obtain ⟨p, hp, hlt, hmax⟩ :=
    exists_greatest_below F (hr.pos_of_mem (List.mem_append_right F hbp))
  exact ⟨p, hr, hbp, hp, hlt, hmax⟩

namespace FreeSpot

theorem not_mem (hs : FreeSpot h F L bp p) : bp ∉ F := fun hF =>
  List.disjoint_of_nodup_append hs.ring.layout.nodup hF hs.used

theorem mem_blocks (hs : FreeSpot h F L bp p) : bp ∈ F ++ L := List.mem_append_right F hs.used

/-- The block after `p` on the ring is the first free block above `bp`, which
`bp` ends at or before; or `p` is the last and links back to `base`. -/
theorem next_cases (hs : FreeSpot h F L bp p) :
    ((h.mem p).ptr ∈ F ∧ bp + (h.mem bp).size ≤ (h.mem p).ptr ∧
        ∀ x ∈ F, p < x → (h.mem p).ptr ≤ x) ∨
      ((h.mem p).ptr = 0 ∧ ∀ x ∈ F, x ≤ p) := by
  rcases hs.ring.links p hs.mem with ⟨hn, hpn, hmin⟩ | ⟨h0, hall⟩
  · refine .inl ⟨hn, ?_, hmin⟩
    have hbn : bp < (h.mem p).ptr := by
      rcases lt_trichotomy bp (h.mem p).ptr with hlt | heq | hgt
      · exact hlt
      · exact absurd (heq ▸ hn) hs.not_mem
      · exact absurd (hs.max _ hn hgt) (not_le.mpr hpn)
    exact hs.ring.layout.add_le_of_lt hs.mem_blocks (List.mem_append_left L hn) hbn
  · exact .inr ⟨h0, hall⟩

/-- A free block is at or below `p`, or at or above the block after it. -/
theorem mem_cases (hs : FreeSpot h F L bp p) {x : Nat} (hx : x ∈ F) :
    x ≤ p ∨ ((h.mem p).ptr ∈ F ∧ bp + (h.mem bp).size ≤ (h.mem p).ptr ∧ (h.mem p).ptr ≤ x) := by
  by_cases hxp : x ≤ p
  · exact .inl hxp
  rcases hs.next_cases with ⟨hn, hbn, hmin⟩ | ⟨-, hall⟩
  · exact .inr ⟨hn, hbn, hmin x hx (not_le.mp hxp)⟩
  · exact absurd (hall x hx) hxp

/-- The loop of `free` stops at `p` and nowhere else on the ring. -/
theorem stop_iff (hs : FreeSpot h F L bp p) {c : Nat} (hc : c ∈ 0 :: F) :
    Heap.FreeStop h.mem bp c ↔ c = p := by
  have hlt := hs.lt
  constructor
  · intro hstop
    unfold Heap.FreeStop at hstop
    by_contra hcp
    -- below `bp`, `c` is at most `p`, so `p` is free and between `c` and its successor
    have hcle : c < bp → c < p := by
      intro hcb
      rcases List.mem_cons.mp hc with rfl | hcF
      · rcases List.mem_cons.mp hs.mem with h0 | -
        · exact absurd h0.symm hcp
        · exact Nat.pos_of_ne_zero (Ne.symm hcp)
      · exact lt_of_le_of_ne (hs.max c hcF hcb) hcp
    have hpF : c < bp → p ∈ F := fun hcb => by
      rcases List.mem_cons.mp hs.mem with h0 | hpF
      · exact absurd (h0 ▸ hcle hcb) (Nat.not_lt_zero c)
      · exact hpF
    rcases hs.ring.links c hc with ⟨hn, hcn, hmin⟩ | ⟨h0, hall⟩
    · rcases hstop with ⟨hcb, hbn⟩ | ⟨hnc, -⟩
      · have := hmin p (hpF hcb) (hcle hcb)
        omega
      · omega
    · rw [h0] at hstop
      rcases hstop with ⟨-, hb0⟩ | ⟨-, hcb | hb0⟩
      · omega
      · have hpc : p ≤ c := by
          rcases List.mem_cons.mp hs.mem with h0 | hpF
          · omega
          · exact hall p hpF
        have := hcle hcb
        omega
      · omega
  · rintro rfl
    rcases hs.next_cases with ⟨-, hbn, -⟩ | ⟨h0, -⟩
    · have := hs.ring.layout.pos bp hs.mem_blocks
      exact .inl ⟨hs.lt, by omega⟩
    · exact .inr ⟨by omega, .inl hs.lt⟩

/-- The loop of `free`, from any block of the ring, finds `p`. -/
theorem freeScan_eq (hs : FreeSpot h F L bp p) {f : Nat} (hf : f ∈ 0 :: F) :
    Heap.freeScan h.mem bp f (h.brk + 1) = some p := by
  obtain ⟨S, hperm, -, hc⟩ := hs.ring.cycle
  have hmem : ∀ x, x ∈ 0 :: S ↔ x ∈ 0 :: F := fun x => by
    simp only [List.mem_cons, hperm.mem_iff]
  obtain ⟨d, hd, hstop, hbefore⟩ := hc.first (Q := Heap.FreeStop h.mem bp) ((hmem f).mpr hf)
    ⟨p, (hmem p).mpr hs.mem, (hs.stop_iff hs.mem).mpr rfl⟩
  have hlen : (0 :: S).length ≤ h.brk + 1 := by
    have := hs.ring.layout.length_le
    simp only [List.length_cons, hperm.length_eq, List.length_append] at this ⊢
    omega
  have hskip := iterate_skip (F := Heap.freeScan h.mem bp)
    (fun q k hq => by rw [Heap.freeScan_succ, if_neg hq]; rfl) hbefore (h.brk + 1 - d)
  have hd' : h.brk + 1 - d + d = h.brk + 1 := by omega
  rw [hd'] at hskip
  have hp : h.link^[d] f = p :=
    (hs.stop_iff ((hmem _).mp (hc.iterate_mem ((hmem f).mpr hf) d))).mp hstop
  rw [hskip, hp, show h.brk + 1 - d = (h.brk - d) + 1 by omega, Heap.freeScan_succ,
    if_pos ((hs.stop_iff hs.mem).mpr rfl)]

end FreeSpot

/-- The block `free` leaves where `bp` was, `p` being the free block below it:
it starts at `p` when the two touch, and it ends where the free block above
ends when `bp` touches that one. -/
def mergedStart (h : Heap) (bp p : Nat) : Nat :=
  if p + (h.mem p).size = bp then p else bp

def mergedEnd (h : Heap) (bp p : Nat) : Nat :=
  if bp + (h.mem bp).size = (h.mem p).ptr then (h.mem p).ptr + (h.mem (h.mem p).ptr).size
  else bp + (h.mem bp).size

theorem le_mergedEnd (h : Heap) (bp p : Nat) : bp + (h.mem bp).size ≤ mergedEnd h bp p := by
  unfold mergedEnd
  split_ifs with hU
  · omega
  · exact le_rfl

/-- Its link: past the block above when that one was joined. -/
def mergedNext (h : Heap) (bp p : Nat) : Nat :=
  if bp + (h.mem bp).size = (h.mem p).ptr then (h.mem (h.mem p).ptr).ptr else (h.mem p).ptr

/-- The free blocks after `free`: the joined block, and those outside it. -/
def freedList (h : Heap) (F : List Nat) (bp p : Nat) : List Nat :=
  mergedStart h bp p :: F.filter fun x => x < mergedStart h bp p ∨ mergedEnd h bp p ≤ x

theorem mem_freedList {h : Heap} {F : List Nat} {bp p x : Nat} :
    x ∈ freedList h F bp p ↔
      x = mergedStart h bp p ∨ (x ∈ F ∧ (x < mergedStart h bp p ∨ mergedEnd h bp p ≤ x)) := by
  simp [freedList]

/-- What `free(bp + 1)` does, `p` being the free block below `bp`: the joined
block has its link and length, `p` links to `bp` when the two do not touch,
`freep` is `p`, and nothing else changes. -/
structure FreedBy (h : Heap) (bp p : Nat) (h' : Heap) : Prop where
  brk : h'.brk = h.brk
  start : h'.start = h.start
  live : h'.live = h.live
  freep : h'.freep = some p
  frame : ∀ x, x ≠ p → x ≠ bp → h'.mem x = h.mem x
  merged : h'.mem (mergedStart h bp p) =
    ⟨mergedNext h bp p, mergedEnd h bp p - mergedStart h bp p⟩
  lower : p + (h.mem p).size ≠ bp → h'.mem p = ⟨bp, (h.mem p).size⟩

namespace FreeSpot

theorem free_eq (hs : FreeSpot h F L bp p) :
    ∃ h', h.free (bp + 1) = some h' ∧ FreedBy h bp p h' := by
  obtain ⟨f, hf, hfp⟩ := hs.ring.freep
  have hpb : p ≠ bp := Nat.ne_of_lt hs.lt
  simp only [Heap.free, Nat.add_sub_cancel, hfp, Option.bind_eq_bind, Option.bind_some,
    hs.freeScan_eq hf, Option.pure_def, Option.some.injEq, exists_eq_left']
  refine ⟨by split_ifs <;> rfl, by split_ifs <;> rfl, by split_ifs <;> rfl, rfl,
    fun x hxp hxb => ?_, ?_, fun hL => ?_⟩
  · split_ifs <;> simp [Function.update_apply, hxp, hxb]
  · unfold mergedStart mergedNext mergedEnd
    -- the four ways `free` joins: the sizes add up to the joined block's length
    by_cases hU : bp + (h.mem bp).size = (h.mem p).ptr <;>
      by_cases hL : p + (h.mem p).size = bp <;>
      simp [hU, hL, hpb, Ne.symm hpb] <;> omega
  · by_cases hU : bp + (h.mem bp).size = (h.mem p).ptr <;> simp [hU, hL, hpb]

theorem mem_of_joins_down (hs : FreeSpot h F L bp p) (hL : p + (h.mem p).size = bp) : p ∈ F := by
  refine (List.mem_cons.mp hs.mem).resolve_left ?_
  rintro rfl
  rw [hs.ring.base] at hL
  have := hs.lt
  omega

theorem next_mem_of_joins_up (hs : FreeSpot h F L bp p)
    (hU : bp + (h.mem bp).size = (h.mem p).ptr) : (h.mem p).ptr ∈ F := by
  rcases hs.next_cases with ⟨hn, -⟩ | ⟨h0, -⟩
  · exact hn
  · have := hs.lt
    omega

theorem mergedStart_le (hs : FreeSpot h F L bp p) :
    p ≤ mergedStart h bp p ∧ mergedStart h bp p ≤ bp := by
  unfold mergedStart
  split_ifs
  · exact ⟨le_rfl, le_of_lt hs.lt⟩
  · exact ⟨le_of_lt hs.lt, le_rfl⟩

/-- The joined block is a block of `F ++ L` and not `base`. -/
theorem mergedStart_mem (hs : FreeSpot h F L bp p) :
    mergedStart h bp p ∈ F ++ L ∧ 0 < mergedStart h bp p := by
  unfold mergedStart
  split_ifs with hL
  · have hpF := hs.mem_of_joins_down hL
    exact ⟨List.mem_append_left L hpF, hs.ring.pos_of_mem (List.mem_append_left L hpF)⟩
  · exact ⟨hs.mem_blocks, hs.ring.pos_of_mem hs.mem_blocks⟩

theorem mergedStart_lt_end (hs : FreeSpot h F L bp p) :
    mergedStart h bp p < mergedEnd h bp p := by
  have := hs.mergedStart_le
  have := le_mergedEnd h bp p
  have := hs.ring.layout.pos bp hs.mem_blocks
  omega

/-- Every block but those `free` joins lies outside the joined block. -/
theorem outside (hs : FreeSpot h F L bp p) {x : Nat} (hx : x ∈ F ++ L) (hxb : x ≠ bp)
    (hxM : x ≠ mergedStart h bp p)
    (hxn : bp + (h.mem bp).size = (h.mem p).ptr → x ≠ (h.mem p).ptr) :
    x < mergedStart h bp p ∨ mergedEnd h bp p ≤ x := by
  have hl := hs.ring.layout
  rcases Nat.lt_or_gt_of_ne hxb with hlt | hgt
  · -- below `bp`: below `p` too, unless it is `p` joined to `bp`
    left
    unfold mergedStart at hxM ⊢
    split_ifs at hxM ⊢ with hL
    · have hpF := hs.mem_of_joins_down hL
      rcases List.mem_append.mp hx with hxF | hxL
      · exact lt_of_le_of_ne (hs.max x hxF hlt) hxM
      · have hap := hl.apart x hx p (List.mem_append_left L hpF) hxM
        simp only [Apart] at hap
        omega
    · exact hlt
  · -- above `bp`: past it, and past the block above when that one was joined
    right
    have hbx := hl.add_le_of_lt hs.mem_blocks hx hgt
    unfold mergedEnd
    split_ifs with hU
    · have hn := List.mem_append_left L (hs.next_mem_of_joins_up hU)
      have hap := hl.apart x hx _ hn (hxn hU)
      have := hl.pos x hx
      simp only [Apart] at hap
      omega
    · exact hbx

theorem nodup_left (hs : FreeSpot h F L bp p) : F.Nodup :=
  (List.nodup_append.mp hs.ring.layout.nodup).1

theorem nodup_right (hs : FreeSpot h F L bp p) : L.Nodup :=
  (List.nodup_append.mp hs.ring.layout.nodup).2.1

theorem ne_of_mem (hs : FreeSpot h F L bp p) {x y : Nat} (hx : x ∈ F) (hy : y ∈ L) : x ≠ y :=
  fun hxy => List.disjoint_of_nodup_append hs.ring.layout.nodup hx (hxy ▸ hy)

/-- The blocks after `free`: the joined block, and those outside it. -/
theorem mem_freed_blocks (hs : FreeSpot h F L bp p) {x : Nat} :
    x ∈ freedList h F bp p ++ L.erase bp ↔
      x = mergedStart h bp p ∨
        (x ∈ F ++ L ∧ (x < mergedStart h bp p ∨ mergedEnd h bp p ≤ x)) := by
  rw [List.mem_append, mem_freedList, hs.nodup_right.mem_erase_iff]
  constructor
  · rintro ((hx | ⟨hxF, hxo⟩) | ⟨hxb, hxL⟩)
    · exact .inl hx
    · exact .inr ⟨List.mem_append_left L hxF, hxo⟩
    · by_cases hxM : x = mergedStart h bp p
      · exact .inl hxM
      have hx := List.mem_append_right F hxL
      refine .inr ⟨hx, hs.outside hx hxb hxM fun hU => ?_⟩
      exact Ne.symm (hs.ne_of_mem (hs.next_mem_of_joins_up hU) hxL)
  · rintro (hx | ⟨hx, hxo⟩)
    · exact .inl (.inl hx)
    rcases List.mem_append.mp hx with hxF | hxL
    · exact .inl (.inr ⟨hxF, hxo⟩)
    · refine .inr ⟨?_, hxL⟩
      intro hxb
      have := hs.mergedStart_le
      have := le_mergedEnd h bp p
      have := hs.ring.layout.pos _ hs.mem_blocks
      omega

theorem nodup_freed_blocks (hs : FreeSpot h F L bp p) :
    (freedList h F bp p ++ L.erase bp).Nodup := by
  have hlt := hs.mergedStart_lt_end
  refine List.nodup_append.mpr ⟨List.nodup_cons.mpr ⟨fun hM => ?_, hs.nodup_left.filter _⟩,
    hs.nodup_right.erase bp, fun a ha b hb => ?_⟩
  · have := (List.mem_filter.mp hM).2
    simp only [decide_eq_true_eq] at this
    omega
  · have hb' := (hs.nodup_right.mem_erase_iff.mp hb)
    rcases List.mem_cons.mp ha with rfl | ha
    · -- the joined block is `p`, which is free, or `bp`, which left `L`
      unfold mergedStart
      split_ifs with hL
      · exact hs.ne_of_mem (hs.mem_of_joins_down hL) hb'.2
      · exact Ne.symm hb'.1
    · exact hs.ne_of_mem (List.mem_filter.mp ha).1 hb'.2

section Freed

variable {h' : Heap}

/-- The blocks other than the joined one keep their lengths. -/
theorem size_freed (hs : FreeSpot h F L bp p) (hf : FreedBy h bp p h') {x : Nat}
    (hx : x ∈ freedList h F bp p ++ L.erase bp) (hxM : x ≠ mergedStart h bp p) :
    (h'.mem x).size = (h.mem x).size := by
  have hxb : x ≠ bp := by
    rintro rfl
    rcases List.mem_append.mp hx with hxF | hxL
    · rcases mem_freedList.mp hxF with h1 | ⟨hF, -⟩
      · exact hxM h1
      · exact hs.not_mem hF
    · exact hs.nodup_right.not_mem_erase hxL
  by_cases hxp : x = p
  · subst hxp
    have hL : x + (h.mem x).size ≠ bp := fun hL => hxM (by unfold mergedStart; rw [if_pos hL])
    rw [hf.lower hL]
  · rw [hf.frame x hxp hxb]

/-- The joined block links past the blocks it joined. -/
theorem link_merged (hs : FreeSpot h F L bp p) (hf : FreedBy h bp p h') :
    NextUp (freedList h F bp p) 0 (mergedStart h bp p) (h'.mem (mergedStart h bp p)).ptr := by
  have hl := hs.ring.layout
  have hMle := hs.mergedStart_le
  have hE := le_mergedEnd h bp p
  rw [hf.merged]
  unfold mergedNext
  split_ifs with hU
  · -- it ends where the free block above ended: it links where that one did
    have hn := hs.next_mem_of_joins_up hU
    have hnpos := hl.pos _ (List.mem_append_left L hn)
    have hEn : mergedEnd h bp p = (h.mem p).ptr + (h.mem (h.mem p).ptr).size := by
      unfold mergedEnd
      rw [if_pos hU]
    refine (hs.ring.links _ (List.mem_cons_of_mem 0 hn)).shift (fun x hMx => ?_)
      fun x _ hnx => by omega
    rw [mem_freedList]
    constructor
    · rintro (hxM | ⟨hxF, hxo⟩)
      · omega
      · exact ⟨by omega, hxF⟩
    · rintro ⟨hnx, hxF⟩
      refine .inr ⟨hxF, .inr ?_⟩
      rw [hEn]
      exact hl.add_le_of_lt (List.mem_append_left L hn) (List.mem_append_left L hxF) hnx
  · -- it ends where `bp` ended: it links where `p` did
    have hEb : mergedEnd h bp p = bp + (h.mem bp).size := by
      unfold mergedEnd
      rw [if_neg hU]
    -- the free blocks above `p` start past `bp`
    have hpast : ∀ x ∈ F, p < x → bp + (h.mem bp).size ≤ x := fun x hxF hpx => by
      rcases hs.mem_cases hxF with hxp | ⟨-, hbn, hnx⟩
      · omega
      · omega
    have hbpos := hl.pos bp hs.mem_blocks
    refine (hs.ring.links p hs.mem).shift (fun x hMx => ?_) fun x hxF hpx => by
      have := hpast x hxF hpx
      omega
    rw [mem_freedList]
    constructor
    · rintro (hxM | ⟨hxF, hxo⟩)
      · omega
      · exact ⟨by omega, hxF⟩
    · rintro ⟨hpx, hxF⟩
      refine .inr ⟨hxF, .inr ?_⟩
      rw [hEb]
      exact hpast x hxF hpx

/-- `p`, when not joined to `bp`, links to it. -/
theorem link_lower (hs : FreeSpot h F L bp p) (hf : FreedBy h bp p h')
    (hL : p + (h.mem p).size ≠ bp) : NextUp (freedList h F bp p) 0 p (h'.mem p).ptr := by
  have hMb : mergedStart h bp p = bp := by
    unfold mergedStart
    rw [if_neg hL]
  have hE := le_mergedEnd h bp p
  rw [hf.lower hL]
  show NextUp (freedList h F bp p) 0 p bp
  refine .inl ⟨mem_freedList.mpr (.inl hMb.symm), hs.lt, fun x hx hpx => ?_⟩
  rcases mem_freedList.mp hx with hxM | ⟨hxF, hxlt | hxE⟩
  · omega
  · exact absurd (hs.max x hxF (hMb ▸ hxlt)) (not_le.mpr hpx)
  · omega

/-- Every other block of the ring keeps its link, which still leads to the
next free block up. -/
theorem link_other (hs : FreeSpot h F L bp p) (hf : FreedBy h bp p h') {c : Nat}
    (hc : c ∈ 0 :: freedList h F bp p) (hcM : c ≠ mergedStart h bp p) (hcp : c ≠ p) :
    NextUp (freedList h F bp p) 0 c (h'.mem c).ptr := by
  have hMle := hs.mergedStart_le
  have hMpos := hs.mergedStart_mem.2
  have hME := hs.mergedStart_lt_end
  -- `c` is `base` or a free block outside the joined one
  have hcF : c ∈ 0 :: F ∧ (c < mergedStart h bp p ∨ mergedEnd h bp p ≤ c) := by
    rcases List.mem_cons.mp hc with rfl | hc
    · exact ⟨List.mem_cons_self, .inl hMpos⟩
    · rcases mem_freedList.mp hc with hcM' | ⟨hcF, hco⟩
      · exact absurd hcM' hcM
      · exact ⟨List.mem_cons_of_mem 0 hcF, hco⟩
  have hcb : c ≠ bp := by
    rintro rfl
    rcases List.mem_cons.mp hcF.1 with h0 | hF
    · exact absurd h0 (Nat.ne_of_gt (lt_of_le_of_lt (Nat.zero_le p) hs.lt))
    · exact hs.not_mem hF
  rw [hf.frame c hcp hcb]
  rcases hcF with ⟨hcF, hcM' | hEc⟩
  · -- below the joined block, `c` is below `p`, and links to `p` or below
    have hcp' : c < p := by
      rcases List.mem_cons.mp hcF with rfl | hF
      · exact Nat.pos_of_ne_zero (Ne.symm hcp)
      · exact lt_of_le_of_ne (hs.max c hF (by omega)) hcp
    have hpF : p ∈ F := (List.mem_cons.mp hs.mem).resolve_left (by omega)
    rcases hs.ring.links c hcF with ⟨hn, hcn, hmin⟩ | ⟨-, hall⟩
    · have hnp := hmin p hpF hcp'
      refine NextUp.congr_upto (hs.ring.links c hcF) hn hcn fun x hcx hxn => ?_
      rw [mem_freedList]
      constructor
      · intro hxF
        rcases Nat.lt_or_ge x (mergedStart h bp p) with hxM | hxM
        · exact .inr ⟨hxF, .inl hxM⟩
        · exact .inl (by omega)
      · rintro (hxM | ⟨hxF, -⟩)
        · have : x = p := by omega
          exact this ▸ hpF
        · exact hxF
    · exact absurd (hall p hpF) (not_le.mpr hcp')
  · -- past the joined block nothing changed above `c`
    refine (hs.ring.links c hcF).congr fun x hcx => ?_
    rw [mem_freedList]
    constructor
    · intro hxF
      exact .inr ⟨hxF, .inr (by omega)⟩
    · rintro (hxM | ⟨hxF, -⟩)
      · omega
      · exact hxF

theorem links_freed (hs : FreeSpot h F L bp p) (hf : FreedBy h bp p h') :
    ∀ c ∈ 0 :: freedList h F bp p, NextUp (freedList h F bp p) 0 c (h'.mem c).ptr := by
  intro c hc
  by_cases hcM : c = mergedStart h bp p
  · exact hcM ▸ hs.link_merged hf
  by_cases hcp : c = p
  · subst hcp
    exact hs.link_lower hf fun hL => hcM (by unfold mergedStart; rw [if_pos hL])
  exact hs.link_other hf hc hcM hcp

/-- No free block ends where another begins: the joined block reaches the
next free block only if it was joined with it, and begins where the one
below ends only if it was joined with that. -/
theorem gaps_freed (hs : FreeSpot h F L bp p) (hf : FreedBy h bp p h') :
    ∀ a ∈ freedList h F bp p, ∀ b ∈ freedList h F bp p, a + (h'.mem a).size ≠ b := by
  have hl := hs.ring.layout
  have hMle := hs.mergedStart_le
  have hME := hs.mergedStart_lt_end
  have hE := le_mergedEnd h bp p
  have hpb := hs.lt
  intro a ha b hb
  by_cases haM : a = mergedStart h bp p
  · subst haM
    rw [hf.merged]
    show mergedStart h bp p + (mergedEnd h bp p - mergedStart h bp p) ≠ b
    rcases mem_freedList.mp hb with hbM | ⟨hbF, hbM | hEb⟩
    · omega
    · omega
    · unfold mergedEnd at hEb ⊢
      split_ifs at hEb ⊢ with hU
      · have hn := hs.next_mem_of_joins_up hU
        have := hs.ring.gaps _ hn b hbF
        omega
      · -- a free block starting where `bp` ends is the block after `p`, which `bp` then touches
        intro hbe
        rcases hs.mem_cases hbF with hbp | ⟨-, hbn, hnb⟩
        · omega
        · omega
  · have hsz := hs.size_freed hf (List.mem_append_left _ ha) haM
    rw [hsz]
    obtain ⟨haF, hao⟩ := (mem_freedList.mp ha).resolve_left haM
    rcases mem_freedList.mp hb with rfl | ⟨hbF, -⟩
    · rcases hao with haM' | hEa
      · unfold mergedStart at haM' ⊢
        split_ifs at haM' ⊢ with hL
        · exact hs.ring.gaps a haF p (hs.mem_of_joins_down hL)
        · -- `a` below `bp` is `p` or below it, and `p` ends before `bp`
          have hap := hs.max a haF haM'
          intro hab
          rcases eq_or_lt_of_le hap with rfl | hlt
          · exact hL hab
          · have hpF : p ∈ F := (List.mem_cons.mp hs.mem).resolve_left (by omega)
            have := hl.add_le_of_lt (List.mem_append_left L haF) (List.mem_append_left L hpF) hlt
            omega
      · omega
    · exact hs.ring.gaps a haF b hbF

theorem freeRing_freed (hs : FreeSpot h F L bp p) (hf : FreedBy h bp p h') :
    FreeRing h' (freedList h F bp p) (L.erase bp) := by
  have hl := hs.ring.layout
  have hMle := hs.mergedStart_le
  have hlay : Layout (fun a => (h'.mem a).size) h.start h.brk (freedList h F bp p ++ L.erase bp) := by
    refine hl.coalesce hs.mergedStart_mem.1 ?_ hs.nodup_freed_blocks
      (fun x => hs.mem_freed_blocks) (fun x hx hxM => hs.size_freed hf hx hxM)
      (by rw [hf.merged])
    -- the joined block reaches the end of the block above, or of `bp`
    unfold mergedEnd
    split_ifs with hU
    · have hn := hs.next_mem_of_joins_up hU
      exact ⟨_, List.mem_append_left L hn, by omega, rfl⟩
    · exact ⟨bp, hs.mem_blocks, hMle.2, rfl⟩
  refine ⟨by rw [hf.start, hf.brk]; exact hlay, hs.links_freed hf, hs.gaps_freed hf, ?_,
    ⟨p, ?_, hf.freep⟩, by rw [hf.start]; exact hs.ring.start_pos,
    by rw [hf.start, hf.brk]; exact hs.ring.start_le⟩
  · -- `base` is `p` or untouched, and keeps its length `0`
    have h0b : (0 : Nat) ≠ bp := Nat.ne_of_lt (lt_of_le_of_lt (Nat.zero_le p) hs.lt)
    by_cases h0p : 0 = p
    · subst h0p
      have hL : 0 + (h.mem 0).size ≠ bp := by
        rw [hs.ring.base]
        exact h0b
      rw [hf.lower hL]
      exact hs.ring.base
    · rw [hf.frame 0 h0p h0b]
      exact hs.ring.base
  · -- `p` stays on the ring: it is the joined block or below it
    rcases List.mem_cons.mp hs.mem with h0 | hpF
    · exact h0 ▸ List.mem_cons_self
    refine List.mem_cons_of_mem 0 (mem_freedList.mpr ?_)
    rcases eq_or_lt_of_le hMle.1 with hpM | hpM
    · exact .inl hpM
    · exact .inr ⟨hpF, .inl hpM⟩

end Freed

end FreeSpot

/-- **`free` keeps the free ring.** Freeing a block in use leaves a free ring
in which it is joined with the free blocks it touches, and whose joined
block is at least as long as the block freed. -/
theorem FreeRing.free (hr : FreeRing h F L) (hbp : bp ∈ L) :
    ∃ h', h.free (bp + 1) = some h' ∧ h'.brk = h.brk ∧ h'.start = h.start ∧
      h'.live = h.live ∧ ∃ F', FreeRing h' F' (L.erase bp) ∧
        ∃ m ∈ F', (h.mem bp).size ≤ (h'.mem m).size := by
  obtain ⟨p, hs⟩ := hr.exists_freeSpot hbp
  obtain ⟨h', hfree, hf⟩ := hs.free_eq
  refine ⟨h', hfree, hf.brk, hf.start, hf.live, freedList h F bp p, hs.freeRing_freed hf,
    mergedStart h bp p, mem_freedList.mpr (.inl rfl), ?_⟩
  have := hs.mergedStart_le
  have := le_mergedEnd h bp p
  rw [hf.merged]
  show (h.mem bp).size ≤ mergedEnd h bp p - mergedStart h bp p
  omega

end Free

/-! ## `malloc` -/

namespace FreeRing

variable {h : Heap} {F L : List Nat}

/-- A heap's free ring is one of its states with any record of the blocks in use. -/
theorem setLive (hr : FreeRing h F L) (l : List Nat) : FreeRing { h with live := l } F L :=
  ⟨hr.layout, hr.links, hr.gaps, hr.base, hr.freep, hr.start_pos, hr.start_le⟩

theorem nodup_left (hr : FreeRing h F L) : F.Nodup := (List.nodup_append.mp hr.layout.nodup).1

theorem length_le (hr : FreeRing h F L) : F.length ≤ h.brk := by
  have := hr.layout.length_le
  rw [List.length_append] at this
  omega

/-- A link that leads to a nonempty block leads to a free block above. -/
theorem next_mem (hr : FreeRing h F L) {c : Nat} (hc : c ∈ 0 :: F)
    (hpos : 0 < (h.mem (h.mem c).ptr).size) :
    (h.mem c).ptr ∈ F ∧ c < (h.mem c).ptr ∧ ∀ x ∈ F, c < x → (h.mem c).ptr ≤ x := by
  rcases hr.links c hc with hA | ⟨h0, -⟩
  · exact hA
  · rw [h0, hr.base] at hpos
    exact absurd hpos (Nat.lt_irrefl 0)

/-- No two blocks of the ring link to the same block. -/
theorem next_inj (hr : FreeRing h F L) {c c' : Nat} (hc : c ∈ 0 :: F) (hc' : c' ∈ 0 :: F)
    (hcc : (h.mem c).ptr = (h.mem c').ptr) : c = c' := by
  -- the lower of two blocks with one successor would have the higher between them
  have key : ∀ x y, x ∈ 0 :: F → y ∈ 0 :: F → x < y → (h.mem x).ptr ≠ (h.mem y).ptr := by
    intro x y hx hy hxy hxyn
    have hyF : y ∈ F := (List.mem_cons.mp hy).resolve_left (by omega)
    rcases hr.links x hx with ⟨hn, -, hmin⟩ | ⟨-, hall⟩
    · have hny := hmin y hyF hxy
      rcases hr.links y hy with ⟨-, hyn, -⟩ | ⟨h0, -⟩
      · omega
      · have := hr.pos_of_mem (List.mem_append_left L hn)
        omega
    · exact absurd (hall y hyF) (not_le.mpr hxy)
  rcases lt_trichotomy c c' with hlt | heq | hgt
  · exact absurd hcc (key c c' hc hc' hlt)
  · exact heq
  · exact absurd hcc.symm (key c' c hc' hc hgt)

/-- Taking all of the block `p` after `prevp` unlinks it. -/
theorem take_whole (hr : FreeRing h F L) {prevp nunits : Nat} (hprev : prevp ∈ 0 :: F)
    (hfit : (h.mem (h.mem prevp).ptr).size = nunits) (hn : 0 < nunits) :
    FreeRing { h.set prevp ⟨(h.mem (h.mem prevp).ptr).ptr, (h.mem prevp).size⟩ with
      freep := some prevp } (F.erase (h.mem prevp).ptr) ((h.mem prevp).ptr :: L) := by
  obtain ⟨hpF, hpp, hmin⟩ := hr.next_mem hprev (by omega)
  have hnd := hr.nodup_left
  have hpb : prevp ≠ (h.mem prevp).ptr := Nat.ne_of_lt hpp
  -- only `prevp`'s link changes
  have hmem : ∀ x, (Function.update h.mem prevp
      ⟨(h.mem (h.mem prevp).ptr).ptr, (h.mem prevp).size⟩ x).size = (h.mem x).size := by
    intro x
    by_cases hx : x = prevp
    · subst hx
      simp
    · simp [hx]
  have hptr : ∀ x, x ≠ prevp → (Function.update h.mem prevp
      ⟨(h.mem (h.mem prevp).ptr).ptr, (h.mem prevp).size⟩ x).ptr = (h.mem x).ptr := by
    intro x hx
    simp [hx]
  refine ⟨?_, fun c hc => ?_, fun a ha b hb => ?_, by simp only [Heap.set_mem]; rw [hmem]; exact hr.base,
    ⟨prevp, ?_, rfl⟩, hr.start_pos, hr.start_le⟩
  · refine hr.layout.of_mem_iff ?_ (fun x => ?_) fun x _ => hmem x
    · exact (List.perm_middle.trans ((List.perm_cons_erase hpF).symm.append_right L)).nodup_iff.mpr
        hr.layout.nodup
    · rw [List.mem_append, List.mem_cons, hnd.mem_erase_iff, List.mem_append]
      constructor
      · rintro (⟨-, hx⟩ | rfl | hx)
        · exact .inl hx
        · exact .inl hpF
        · exact .inr hx
      · rintro (hx | hx)
        · by_cases hxp : x = (h.mem prevp).ptr
          · exact .inr (.inl hxp)
          · exact .inl ⟨hxp, hx⟩
        · exact .inr (.inr hx)
  · have hc' : c ∈ 0 :: F := by
      rcases List.mem_cons.mp hc with rfl | hc
      · exact List.mem_cons_self
      · exact List.mem_cons_of_mem 0 (List.mem_of_mem_erase hc)
    simp only [Heap.set_mem]
    by_cases hcp : c = prevp
    · -- `prevp` now links where `p` did
      subst hcp
      simp only [Function.update_self]
      have hpC : (h.mem c).ptr ∈ 0 :: F := List.mem_cons_of_mem 0 hpF
      refine (hr.links _ hpC).shift (fun x hcx => ?_) fun x hxF hpx => lt_trans hpp hpx
      rw [hnd.mem_erase_iff]
      constructor
      · rintro ⟨hxp, hxF⟩
        exact ⟨lt_of_le_of_ne (hmin x hxF hcx) (Ne.symm hxp), hxF⟩
      · rintro ⟨hpx, hxF⟩
        exact ⟨Nat.ne_of_gt hpx, hxF⟩
    · -- any other link did not lead to `p`, and still leads to the next free block up
      rw [hptr c hcp]
      have hne : (h.mem c).ptr ≠ (h.mem prevp).ptr := fun heq => hcp (hr.next_inj hc' hprev heq)
      rcases hr.links c hc' with ⟨hn, hcn, hmin'⟩ | ⟨h0, hall⟩
      · exact .inl ⟨(List.mem_erase_of_ne hne).mpr hn, hcn,
          fun x hx => hmin' x (List.mem_of_mem_erase hx)⟩
      · exact .inr ⟨h0, fun x hx => hall x (List.mem_of_mem_erase hx)⟩
  · simp only [Heap.set_mem]
    rw [hmem]
    exact hr.gaps a (List.mem_of_mem_erase ha) b (List.mem_of_mem_erase hb)
  · rcases List.mem_cons.mp hprev with h0 | hF
    · exact h0 ▸ List.mem_cons_self
    · exact List.mem_cons_of_mem 0 ((List.mem_erase_of_ne hpb).mpr hF)

/-- Taking the tail end of the free block `p` leaves its head free and the
tail, at `q`, in use. -/
theorem take_tail (hr : FreeRing h F L) {prevp p nunits : Nat} (hprev : prevp ∈ 0 :: F)
    (hp : (h.mem prevp).ptr = p) (hfit : nunits < (h.mem p).size) (hn : 0 < nunits)
    (v : Nat) :
    FreeRing { (h.set p ⟨(h.mem p).ptr, (h.mem p).size - nunits⟩).set
        (p + ((h.mem p).size - nunits)) ⟨v, nunits⟩ with freep := some prevp }
      F ((p + ((h.mem p).size - nunits)) :: L) := by
  subst hp
  obtain ⟨hpF, -, -⟩ := hr.next_mem hprev (by omega)
  have hl := hr.layout
  have hpB := List.mem_append_left L hpF
  set p := (h.mem prevp).ptr with hp
  set q := p + ((h.mem p).size - nunits) with hq
  have hqB : q ∉ F ++ L := hl.not_mem_of_lt hpB (by omega) (by omega)
  have hqF : q ∉ F := fun h => hqB (List.mem_append_left L h)
  have hq0 : q ≠ 0 := by omega
  have hpq : p ≠ q := by omega
  -- the new headers: `p` shorter, `q` new, the rest as they were
  have hmp : Function.update (Function.update h.mem p ⟨(h.mem p).ptr, (h.mem p).size - nunits⟩)
      q ⟨v, nunits⟩ p = ⟨(h.mem p).ptr, (h.mem p).size - nunits⟩ := by
    simp [hpq]
  have hmx : ∀ x, x ≠ p → x ≠ q → Function.update (Function.update h.mem p
      ⟨(h.mem p).ptr, (h.mem p).size - nunits⟩) q ⟨v, nunits⟩ x = h.mem x := by
    intro x hxp hxq
    simp [hxp, hxq]
  have hptr : ∀ c ∈ 0 :: F, (Function.update (Function.update h.mem p
      ⟨(h.mem p).ptr, (h.mem p).size - nunits⟩) q ⟨v, nunits⟩ c).ptr = (h.mem c).ptr := by
    intro c hc
    have hcq : c ≠ q := by
      rintro rfl
      rcases List.mem_cons.mp hc with h0 | hF
      · exact hq0 h0
      · exact hqF hF
    by_cases hcp : c = p
    · rw [hcp, hmp]
    · rw [hmx c hcp hcq]
  have hsize : ∀ a ∈ F, a ≠ p → (Function.update (Function.update h.mem p
      ⟨(h.mem p).ptr, (h.mem p).size - nunits⟩) q ⟨v, nunits⟩ a).size = (h.mem a).size := by
    intro a ha hap
    rw [hmx a hap fun haq => hqF (haq ▸ ha)]
  refine ⟨?_, fun c hc => ?_, fun a ha b hb => ?_, ?_, ⟨prevp, hprev, rfl⟩, hr.start_pos,
    hr.start_le⟩
  · refine hl.split hpB (show 0 < (h.mem p).size - nunits by omega) (by omega) ?_ (fun x => ?_)
      (fun x hx hxp => ?_) ?_ ?_
    · exact List.perm_middle.nodup_iff.mpr (List.nodup_cons.mpr ⟨hqB, hl.nodup⟩)
    · simp only [List.mem_append, List.mem_cons]
      tauto
    · simp only [Heap.set_mem]
      rw [hmx x hxp fun hxq => hqB (hxq ▸ hx)]
    · simp only [Heap.set_mem]
      rw [hmp]
    · simp only [Heap.set_mem]
      rw [← hq, Function.update_self]
      show nunits = (h.mem p).size - ((h.mem p).size - nunits)
      omega
  · simp only [Heap.set_mem]
    rw [hptr c hc]
    exact hr.links c hc
  · simp only [Heap.set_mem]
    by_cases hap : a = p
    · rw [hap, hmp]
      show q ≠ b
      rintro rfl
      exact hqF hb
    · rw [hsize a ha hap]
      exact hr.gaps a ha b hb
  · simp only [Heap.set_mem]
    have h0p : (0 : Nat) ≠ p := Ne.symm (Nat.pos_iff_ne_zero.mp (hr.pos_of_mem hpB))
    rw [hmx 0 h0p (Ne.symm hq0)]
    exact hr.base

/-- The memory `sbrk` hands out at the break is a new block in use. -/
theorem extend (hr : FreeRing h F L) {nu : Nat} (hnu : 0 < nu) (v : Nat) :
    FreeRing { h.set h.brk ⟨v, nu⟩ with brk := h.brk + nu } F (h.brk :: L) := by
  have hl := hr.layout
  -- every block ends at or before the break
  have hbB : h.brk ∉ F ++ L := fun hb => by
    have := hl.le_hi _ hb
    have := hl.pos _ hb
    omega
  have hbF : h.brk ∉ F := fun hb => hbB (List.mem_append_left L hb)
  have hb0 : h.brk ≠ 0 := by
    have := hr.start_pos
    have := hr.start_le
    omega
  have hmx : ∀ x, x ≠ h.brk → Function.update h.mem h.brk ⟨v, nu⟩ x = h.mem x := by
    intro x hx
    simp [hx]
  refine ⟨?_, fun c hc => ?_, fun a ha b hb => ?_, ?_, hr.freep, hr.start_pos, ?_⟩
  · show Layout (fun a => (Function.update h.mem h.brk ⟨v, nu⟩ a).size) h.start (h.brk + nu)
      (F ++ h.brk :: L)
    refine hl.extend hr.start_le (by rw [Function.update_self]) hnu ?_ (fun x => ?_) fun x hx => ?_
    · exact List.perm_middle.nodup_iff.mpr (List.nodup_cons.mpr ⟨hbB, hl.nodup⟩)
    · simp only [List.mem_append, List.mem_cons]
      tauto
    · rw [hmx x fun hxb => hbB (hxb ▸ hx)]
  · have hcb : c ≠ h.brk := by
      rintro rfl
      rcases List.mem_cons.mp hc with h0 | hF
      · exact hb0 h0
      · exact hbF hF
    simp only [Heap.set_mem]
    rw [hmx c hcb]
    exact hr.links c hc
  · simp only [Heap.set_mem]
    rw [hmx a fun hab => hbF (hab ▸ ha)]
    exact hr.gaps a ha b hb
  · simp only [Heap.set_mem]
    rw [hmx 0 (Ne.symm hb0)]
    exact hr.base
  · show h.start ≤ h.brk + nu
    have := hr.start_le
    omega

/-- **`morecore` keeps the free ring**, and puts on it a block at least as
long as asked for. -/
theorem morecore (hr : FreeRing h F L) (nu : Nat) :
    ∃ h' F', h.morecore nu true = some (h'.freep, h') ∧ FreeRing h' F' L ∧
      h'.live = h.live ∧ h'.brk = h.brk + (if nu < 4096 then 4096 else nu) ∧
      ∃ m ∈ F', nu ≤ (h'.mem m).size := by
  have hnu : 0 < (if nu < 4096 then 4096 else nu) := by
    split_ifs <;> omega
  have hr₁ := hr.extend hnu (h.mem h.brk).ptr
  obtain ⟨h', hfree, hbrk, -, hlive, F', hr', m, hm, hsize⟩ :=
    hr₁.free (List.mem_cons_self (a := h.brk) (l := L))
  rw [List.erase_cons_head] at hr'
  refine ⟨h', F', ?_, hr', hlive, hbrk, m, hm, ?_⟩
  · simp only [Heap.morecore, if_true]
    rw [hfree]
    rfl
  · refine le_trans ?_ hsize
    simp only [Heap.set_mem, Function.update_self]
    split_ifs <;> omega

end FreeRing

/-- What the loop of `malloc` for `nunits` headers leaves, from `h` with the
blocks `L` in use: the record of blocks in use as it was, and either null
beside a free ring, or a block of `nunits` headers in use besides `L`. -/
def MallocPost (h : Heap) (nunits : Nat) (L : List Nat) (r : Nat × Heap) : Prop :=
  r.2.live = h.live ∧ ((r.1 = 0 ∧ ∃ F, FreeRing r.2 F L) ∨
    (0 < r.1 ∧ (r.2.mem (r.1 - 1)).size = nunits ∧ ∃ F, FreeRing r.2 F ((r.1 - 1) :: L)))

namespace FreeRing

variable {h : Heap} {F L : List Nat}

/-- At a block long enough, the loop takes all of it or its tail end. -/
theorem mallocLoop_fit (hr : FreeRing h F L) {prevp nunits : Nat} (hprev : prevp ∈ 0 :: F)
    (hn : 0 < nunits) (hfit : nunits ≤ (h.mem (h.mem prevp).ptr).size)
    (more : Heap → Option (Option Nat × Heap)) (k : Nat) :
    ∃ r, Heap.mallocLoop more nunits h prevp (h.mem prevp).ptr (k + 1) = some r ∧
      MallocPost h nunits L r := by
  obtain ⟨-, hpp, -⟩ := hr.next_mem hprev (by omega)
  have hpb : (h.mem prevp).ptr ≠ prevp := Nat.ne_of_gt hpp
  rw [Heap.mallocLoop, if_pos hfit]
  by_cases heq : (h.mem (h.mem prevp).ptr).size = nunits
  · rw [if_pos heq]
    refine ⟨_, rfl, rfl, .inr ⟨by omega, ?_, F.erase (h.mem prevp).ptr, ?_⟩⟩
    · simp [hpb, heq]
    · simp only [Nat.add_sub_cancel]
      exact hr.take_whole hprev heq hn
  · rw [if_neg heq]
    refine ⟨_, rfl, rfl, .inr ⟨by omega, ?_, F, ?_⟩⟩
    · simp
    · simp only [Nat.add_sub_cancel, Heap.set_mem, Function.update_self]
      exact hr.take_tail hprev rfl (by omega) hn _

/-- The loop of `malloc` walks the ring from `freep` until a block is long
enough, or it is back at `freep` having found none. -/
theorem mallocLoop_walk (hr : FreeRing h F L) {f : Nat} (hfp : h.freep = some f)
    (hf : f ∈ 0 :: F) (nunits : Nat) (more : Heap → Option (Option Nat × Heap)) :
    ∃ d ≤ F.length, (∀ k, Heap.mallocLoop more nunits h f (h.mem f).ptr (k + d) =
        Heap.mallocLoop more nunits h (h.link^[d] f) (h.mem (h.link^[d] f)).ptr k) ∧
      h.link^[d] f ∈ 0 :: F ∧
      (nunits ≤ (h.mem (h.mem (h.link^[d] f)).ptr).size ∨
        ((h.mem (h.link^[d] f)).ptr = f ∧ ∀ y ∈ 0 :: F, (h.mem y).size < nunits)) := by
  obtain ⟨S, hperm, -, hc⟩ := hr.cycle
  have hmem : ∀ x, x ∈ 0 :: S ↔ x ∈ 0 :: F := fun x => by
    simp only [List.mem_cons, hperm.mem_iff]
  have hlen : (0 :: S).length = F.length + 1 := by
    rw [List.length_cons, hperm.length_eq]
  have hf' := (hmem f).mpr hf
  obtain ⟨d, hd, hstop, hbefore⟩ := hc.first_or_back (Q := fun y => nunits ≤ (h.mem y).size) hf'
  -- the link out of the block the loop is at is the block it tests
  have hnext : ∀ j, (h.mem (h.link^[j] f)).ptr = h.link^[j + 1] f := fun j =>
    (Function.iterate_succ_apply' h.link j f).symm
  refine ⟨d, by omega, fun k => ?_, (hmem _).mp (hc.iterate_mem hf' d), ?_⟩
  · refine iterate_skip (F := fun x k => Heap.mallocLoop more nunits h x (h.mem x).ptr k)
      (Q := fun x => nunits ≤ (h.mem (h.link x)).size ∨ h.link x = f) (fun x k hx => ?_)
      (fun j hj => ?_) k
    · obtain ⟨hsz, hne⟩ := not_or.mp hx
      have hsz' : ¬ (h.mem (h.mem x).ptr).size ≥ nunits := hsz
      have hne' : h.freep ≠ some (h.mem x).ptr := by
        rw [hfp]
        exact fun heq => hne (Option.some.inj heq).symm
      show Heap.mallocLoop more nunits h x (h.mem x).ptr (k + 1) = _
      rw [Heap.mallocLoop, if_neg hsz', if_neg hne']
      rfl
    · show ¬ (nunits ≤ (h.mem (h.link (h.link^[j] f))).size ∨ h.link (h.link^[j] f) = f)
      rw [← Function.iterate_succ_apply' h.link j f]
      exact not_or.mpr (hbefore j hj)
  · rw [hnext d]
    by_cases hQ : nunits ≤ (h.mem (h.link^[d + 1] f)).size
    · exact .inl hQ
    refine .inr ⟨hstop.resolve_left hQ, fun y hy => ?_⟩
    -- back at `freep`, the walk has met every block of the ring
    obtain ⟨j, hj, rfl⟩ := hc.mem_of_back hf' (hstop.resolve_left hQ) ((hmem y).mpr hy)
    rcases eq_or_lt_of_le hj with rfl | hlt
    · exact not_le.mp hQ
    · exact not_le.mp (hbefore j hlt).1

/-- With a free block long enough, the loop finds one within one round. -/
theorem mallocLoop_of_fit (hr : FreeRing h F L) {f nunits : Nat} (hfp : h.freep = some f)
    (hf : f ∈ 0 :: F) (hn : 0 < nunits) (hm : ∃ m ∈ F, nunits ≤ (h.mem m).size)
    (more : Heap → Option (Option Nat × Heap)) {k : Nat} (hk : h.brk < k) :
    ∃ r, Heap.mallocLoop more nunits h f (h.mem f).ptr k = some r ∧ MallocPost h nunits L r := by
  obtain ⟨d, hd, hskip, hx, hfit | ⟨-, hall⟩⟩ := hr.mallocLoop_walk hfp hf nunits more
  · have hdk : k = (k - d - 1) + 1 + d := by
      have := hr.length_le
      omega
    rw [hdk, hskip]
    exact hr.mallocLoop_fit hx hn hfit more _
  · obtain ⟨m, hmF, hmfit⟩ := hm
    exact absurd hmfit (not_le.mpr (hall m (List.mem_cons_of_mem 0 hmF)))

/-- **The loop of `malloc` ends**, with enough fuel: it finds a block within a
round, or, back at `freep`, returns null when `sbrk` fails, or gets a block
from `morecore` and finds one within the next round. -/
theorem mallocLoop_ok (hr : FreeRing h F L) {f nunits : Nat} (hfp : h.freep = some f)
    (hf : f ∈ 0 :: F) (hn : 0 < nunits) (grow : Bool) {k : Nat}
    (hk : 2 * (h.brk + nunits + 4096 + 2) ≤ k) :
    ∃ r, Heap.mallocLoop (fun h => h.morecore nunits grow) nunits h f (h.mem f).ptr k = some r ∧
      MallocPost h nunits L r := by
  have hF := hr.length_le
  obtain ⟨d, hd, hskip, hx, hfit | ⟨hback, hall⟩⟩ := hr.mallocLoop_walk hfp hf nunits _
  · have hdk : k = (k - d - 1) + 1 + d := by omega
    rw [hdk, hskip]
    exact hr.mallocLoop_fit hx hn hfit _ _
  have hdk : k = (k - d - 1) + 1 + d := by omega
  rw [hdk, hskip, Heap.mallocLoop, hback, if_neg (not_le.mpr (hall f hf)), if_pos hfp]
  cases grow with
  | false =>
    -- `sbrk` fails: null, and the heap as it was
    exact ⟨(0, h), rfl, rfl, .inl ⟨rfl, F, hr⟩⟩
  | true =>
    obtain ⟨h', F', hmc, hr', hlive, hbrk, m, hm, hsize⟩ := hr.morecore nunits
    obtain ⟨f', hf', hfp'⟩ := hr'.freep
    rw [hmc, hfp']
    have hk' : h'.brk < k - d - 1 := by
      rw [hbrk]
      split_ifs <;> omega
    obtain ⟨r, hrun, hlive', hpost⟩ := hr'.mallocLoop_of_fit hfp' hf' hn ⟨m, hm, hsize⟩ _ hk'
    exact ⟨r, hrun, hlive'.trans hlive, hpost⟩

end FreeRing

/-- The allocator's invariant: nothing yet, or a free ring beside the blocks in use. -/
def UmInv (h : Heap) : Prop := umSys.init h ∨ ∃ F, FreeRing h F h.live

/-- The ring of `base` alone, which the first `malloc` makes. -/
theorem FreeRing.base_only {h : Heap} (hi : umSys.init h) :
    FreeRing { h.set 0 ⟨0, 0⟩ with freep := some 0 } [] h.live := by
  obtain ⟨-, hlive, hstart, hbrk⟩ := hi
  refine ⟨?_, fun c hc => ?_, fun a ha => absurd ha List.not_mem_nil, by simp,
    ⟨0, List.mem_cons_self, rfl⟩, hstart, le_of_eq hbrk.symm⟩
  · rw [hlive]
    exact ⟨List.nodup_nil, fun a ha => absurd ha List.not_mem_nil,
      fun a ha => absurd ha List.not_mem_nil, fun a ha => absurd ha List.not_mem_nil,
      fun a ha => absurd ha List.not_mem_nil⟩
  · rw [List.mem_singleton.mp hc]
    exact .inr ⟨by simp, fun x hx => absurd hx List.not_mem_nil⟩

/-- **`malloc` ends**, from any heap of the invariant. -/
theorem UmInv.malloc {h : Heap} (hi : UmInv h) (nbytes : Nat) (grow : Bool) :
    ∃ r, h.malloc nbytes grow = some r ∧ MallocPost h (nunitsOf nbytes) h.live r := by
  have hn : 0 < nunitsOf nbytes := Nat.succ_pos _
  rcases hi with hi | ⟨F, hr⟩
  · -- the first call: `base` is the ring
    have hfp : h.freep = none := hi.1
    obtain ⟨r, hrun, hpost⟩ := (FreeRing.base_only hi).mallocLoop_ok rfl List.mem_cons_self hn
      grow le_rfl
    refine ⟨r, ?_, hpost⟩
    simp only [Heap.malloc, hfp]
    exact hrun
  · obtain ⟨f, hf, hfp⟩ := hr.freep
    obtain ⟨r, hrun, hpost⟩ := hr.mallocLoop_ok hfp hf hn grow le_rfl
    refine ⟨r, ?_, hpost⟩
    simp only [Heap.malloc, hfp]
    exact hrun

/-- One call of a program keeps the invariant. -/
theorem UmInv.step {h h' : Heap} {op : UmOp} (hi : UmInv h) (ha : h.Allowed op)
    (hst : h.step op = some h') : UmInv h' := by
  cases op with
  | malloc nbytes grow =>
    obtain ⟨r, hrun, hlive, hpost⟩ := hi.malloc nbytes grow
    simp only [Heap.step, hrun, Option.map_some, Option.some.injEq] at hst
    subst hst
    rcases hpost with ⟨h0, F, hr⟩ | ⟨hpos, -, F, hr⟩
    · rw [if_pos h0]
      exact .inr ⟨F, hlive ▸ hr⟩
    · rw [if_neg (Nat.pos_iff_ne_zero.mp hpos)]
      refine .inr ⟨F, ?_⟩
      rw [hlive]
      exact hr.setLive _
  | free ap =>
    obtain ⟨hap, hmem⟩ := ha
    rcases hi with ⟨-, hlive, -⟩ | ⟨F, hr⟩
    · rw [hlive] at hmem
      exact absurd hmem List.not_mem_nil
    obtain ⟨h₁, hfree, -, -, hlive, F', hr', -⟩ := hr.free hmem
    rw [Heap.step, show ap = ap - 1 + 1 by omega, hfree] at hst
    simp only [Option.map_some, Option.some.injEq, Nat.add_sub_cancel] at hst
    subst hst
    refine .inr ⟨F', ?_⟩
    rw [hlive]
    exact hr'.setLive _

theorem umInv_invariant : umSys.Invariant UmInv :=
  TSys.Invariant.of_inductive (fun _ hi => .inl hi) fun _ _ _ hi hst => hi.step hst.1 hst.2

/-- The free ring as the claim reads it: `base` and the free blocks in
increasing order, the blocks apart, no free block touching the next. -/
theorem FreeRing.sorted {h : Heap} {F L : List Nat} (hr : FreeRing h F L) :
    ∃ S, IsCycle h.link (0 :: S) ∧ (0 :: S).Pairwise (· < ·) ∧ (∀ x, x ∈ S ↔ x ∈ F) ∧
      Layout (fun a => (h.mem a).size) h.start h.brk (S ++ L) ∧
      ∀ a ∈ S, ∀ b ∈ S, a + (h.mem a).size ≠ b := by
  obtain ⟨S, hperm, hs, hc⟩ := hr.cycle
  have hpermL := hperm.append_right L
  refine ⟨S, hc, hs, fun x => hperm.mem_iff, ?_, fun a ha b hb => ?_⟩
  · exact hr.layout.of_mem_iff (hpermL.nodup_iff.mpr hr.layout.nodup) (fun x => hpermL.mem_iff)
      fun _ _ => rfl
  · exact hr.gaps a (hperm.mem_iff.mp ha) b (hperm.mem_iff.mp hb)

theorem umalloc_free_list {h : Heap} (hreach : umSys.Reachable h) :
    (∀ f, h.freep = some f → ∃ S, IsCycle h.link (0 :: S) ∧ (0 :: S).Pairwise (· < ·) ∧
        f ∈ 0 :: S ∧ Layout (fun a => (h.mem a).size) h.start h.brk (S ++ h.live) ∧
        ∀ a ∈ S, ∀ b ∈ S, a + (h.mem a).size ≠ b) ∧
    ∀ nbytes grow, nbytes ≤ 2 ^ 31 - 32 → ∃ r h', h.malloc nbytes grow = some (r, h') ∧
      (r = 0 ∨ (nunitsOf nbytes ≤ (h'.mem (r - 1)).size ∧ ∃ S, IsCycle h'.link (0 :: S) ∧
        (0 :: S).Pairwise (· < ·) ∧
        Layout (fun a => (h'.mem a).size) h'.start h'.brk (S ++ (r - 1) :: h.live))) := by
  have hi := umInv_invariant h hreach
  refine ⟨fun f hfp => ?_, fun nbytes grow _ => ?_⟩
  · rcases hi with ⟨hnone, -⟩ | ⟨F, hr⟩
    · rw [hnone] at hfp
      cases hfp
    obtain ⟨S, hc, hs, hmem, hlay, hgaps⟩ := hr.sorted
    obtain ⟨f', hf', hfp'⟩ := hr.freep
    rw [hfp] at hfp'
    cases hfp'
    refine ⟨S, hc, hs, ?_, hlay, hgaps⟩
    rcases List.mem_cons.mp hf' with h0 | hF
    · exact h0 ▸ List.mem_cons_self
    · exact List.mem_cons_of_mem 0 ((hmem f).mpr hF)
  · obtain ⟨r, hrun, -, hpost⟩ := hi.malloc nbytes grow
    refine ⟨r.1, r.2, hrun, ?_⟩
    rcases hpost with ⟨h0, -⟩ | ⟨-, hsz, F, hr⟩
    · exact .inl h0
    obtain ⟨S, hc, hs, -, hlay, -⟩ := hr.sorted
    exact .inr ⟨le_of_eq hsz.symm, S, hc, hs, hlay⟩

theorem umalloc_free_list_first :
    umSys.Reachable ⟨fun _ => ⟨0, 0⟩, none, 1, 1, []⟩ ∧ 16 ≤ 2 ^ 31 - 32 ∧
      ∃ r h', Heap.malloc ⟨fun _ => ⟨0, 0⟩, none, 1, 1, []⟩ 16 true = some (r, h') ∧
        (r = 0 ∨ (nunitsOf 16 ≤ (h'.mem (r - 1)).size ∧ ∃ S, IsCycle h'.link (0 :: S) ∧
          (0 :: S).Pairwise (· < ·) ∧
          Layout (fun a => (h'.mem a).size) h'.start h'.brk (S ++ [r - 1]))) := by
  have hreach : umSys.Reachable ⟨fun _ => ⟨0, 0⟩, none, 1, 1, []⟩ :=
    .init ⟨rfl, rfl, Nat.one_pos, rfl⟩
  exact ⟨hreach, by decide, (umalloc_free_list hreach).2 16 true (by decide)⟩

/-! ## The request in the C types

`malloc` takes a `uint nbytes`. `nunits` is computed in 64 bits, as
`sizeof(Header)` is a `size_t`, and stored in a `uint`; it always fits, so
`nunitsUint` is `nunitsOf` on every argument. `morecore(nu)` stores the `uint`
`nu` in the new block's header, but passes `sbrk` the 64-bit product
`nu * sizeof(Header)` converted to `int`, which from `nu = 2^27` on is not
`nu` headers: it is negative, or for `nu = 2^28 + 1` it is `16`, one header.
The model above counts in `Nat` and its programs keep to requests of at most
`2^31 - 32` bytes (`Heap.Allowed`), where the two agree (`Heap.mallocUint_eq`). -/

/-- `nunits = (nbytes + sizeof(Header) - 1) / sizeof(Header) + 1`: the sum and
the quotient in 64 bits, the result stored in the `uint` `nunits`. -/
def nunitsUint (nbytes : UInt32) : UInt32 := ((nbytes.toUInt64 + 16 - 1) / 16 + 1).toUInt32

/-- The store into `nunits` never truncates. -/
theorem nunitsUint_toNat (nbytes : UInt32) : (nunitsUint nbytes).toNat = nunitsOf nbytes.toNat := by
  have hlt := UInt32.toNat_lt nbytes
  have hsum : (nbytes.toUInt64 + 16 - 1).toNat = nbytes.toNat + 15 := by
    simp only [UInt64.toNat_sub, UInt64.toNat_add, UInt32.toNat_toUInt64, UInt64.reduceToNat]
    omega
  simp only [nunitsUint, nunitsOf, headerSize, UInt64.toNat_toUInt32, UInt64.toNat_add,
    UInt64.toNat_div, hsum, UInt64.reduceToNat]
  omega

/-- The `int` that `morecore(nu)` passes to `sbrk`: `nu`, raised to 4096,
times `sizeof(Header)` in 64 bits, converted to `int`. -/
def morecoreIncrement (nu : UInt32) : Int32 :=
  let nu := if nu < 4096 then 4096 else nu
  (nu.toUInt64 * 16).toUInt32.toInt32

/-- `nu`, raised to 4096, as a number. -/
theorem toNat_raise (nu : UInt32) :
    (if nu < 4096 then 4096 else nu).toNat = if nu.toNat < 4096 then 4096 else nu.toNat := by
  rw [apply_ite UInt32.toNat]
  simp only [UInt32.lt_iff_toNat_lt, UInt32.reduceToNat]

/-- Below `2^27` headers the increment is the bytes of `nu` headers. -/
theorem morecoreIncrement_toInt {nu : UInt32} (h : nu.toNat < 2 ^ 27) :
    (morecoreIncrement nu).toInt = 16 * (if nu.toNat < 4096 then 4096 else nu.toNat) := by
  -- the product is below `2^31`, so it reads back unchanged as an `int`
  have hprod : ((if nu < 4096 then 4096 else nu).toUInt64 * 16).toUInt32.toNat =
      16 * (if nu.toNat < 4096 then 4096 else nu.toNat) := by
    simp only [UInt64.toNat_toUInt32, UInt64.toNat_mul, UInt32.toNat_toUInt64, UInt64.reduceToNat,
      toNat_raise]
    split_ifs <;> omega
  show BitVec.toInt ((if nu < 4096 then 4096 else nu).toUInt64 * 16).toUInt32.toBitVec = _
  rw [BitVec.toInt_eq_toNat_cond, UInt32.toNat_toBitVec, hprod, if_pos (by split_ifs <;> omega)]
  push_cast
  rfl

namespace Heap

/-- `morecore(nu)` in the C types. The header of the new block gets the `uint`
`nu`, raised to 4096, and the break moves by the `int` increment of
`sbrk`; `sbrk` fails only when asked to grow the heap (`grow = false`). A
negative increment shrinks the process, and the model does not follow it
(`none`). -/
def morecoreUint (h : Heap) (nu : UInt32) (grow : Bool) : Option (Option Nat × Heap) :=
  let n := (morecoreIncrement nu).toInt
  let nu := if nu < 4096 then 4096 else nu
  if n < 0 then none
  else if grow || n = 0 then
    let hp := h.brk
    let h := { h.set hp ⟨(h.mem hp).ptr, nu.toNat⟩ with brk := h.brk + n.toNat / 16 }
    (h.free (hp + 1)).map fun h => (h.freep, h)
  else some (none, h)

/-- Below `2^27` headers `morecore` in the C types is `morecore` on the value. -/
theorem morecoreUint_eq (h : Heap) {nu : UInt32} (hnu : nu.toNat < 2 ^ 27) (grow : Bool) :
    h.morecoreUint nu grow = h.morecore nu.toNat grow := by
  have hinc := morecoreIncrement_toInt hnu
  -- at least the 4096 headers `morecore` raises `nu` to
  have hge : 16 * 4096 ≤ (morecoreIncrement nu).toInt := by
    rw [hinc]
    split_ifs <;> omega
  have hpos : ¬ (morecoreIncrement nu).toInt < 0 := by omega
  have hne : (morecoreIncrement nu).toInt ≠ 0 := by omega
  have hunits : (morecoreIncrement nu).toInt.toNat / 16 = if nu.toNat < 4096 then 4096 else nu.toNat := by
    rw [hinc]
    split_ifs <;> omega
  simp only [morecoreUint, morecore, if_neg hpos, hne, decide_false, Bool.or_false, hunits,
    toNat_raise]

/-- `malloc(nbytes)` for a `uint` argument: the loop of `malloc` at the
`nunits` the C code computes, with `morecore` in the C types. -/
def mallocUint (h : Heap) (nbytes : UInt32) (grow : Bool) : Option (Nat × Heap) :=
  let nunits := nunitsUint nbytes
  let h₀ : Heap := { h.set 0 ⟨0, 0⟩ with freep := some 0 }
  let (h, prevp) := match h.freep with
    | none => (h₀, 0)
    | some f => (h, f)
  mallocLoop (fun h => h.morecoreUint nunits grow) nunits.toNat h prevp (h.mem prevp).ptr
    (2 * (h.brk + nunits.toNat + 4096 + 2))

/-- Up to `2^31 - 32` bytes, `malloc` in the C types is `malloc` on the value. -/
theorem mallocUint_eq (h : Heap) {nbytes : UInt32} (hn : nbytes.toNat ≤ 2 ^ 31 - 32)
    (grow : Bool) : h.mallocUint nbytes grow = h.malloc nbytes.toNat grow := by
  have hnu : (nunitsUint nbytes).toNat < 2 ^ 27 := by
    rw [nunitsUint_toNat]
    simp only [nunitsOf, headerSize]
    omega
  have hmore : (fun h : Heap => h.morecoreUint (nunitsUint nbytes) grow) =
      fun h => h.morecore (nunitsOf nbytes.toNat) grow := by
    funext h
    rw [morecoreUint_eq h hnu, nunitsUint_toNat]
  simp only [mallocUint, malloc, hmore, nunitsUint_toNat]

end Heap

/-- A program's heap before its first `malloc`: the break one header past
`&base`. -/
def freshHeap : Heap := ⟨fun _ => ⟨0, 0⟩, none, 1, 1, []⟩

/-- Past `2^31` bytes the `int` increment breaks `malloc`: the first
`malloc(0xffffffff)` asks `sbrk` for 16 bytes and returns a pointer at or past
the break, and `malloc(0x80000000)` makes `morecore` ask for a negative
increment. -/
theorem malloc_request_wraps :
    umSys.Reachable freshHeap ∧
      (morecoreIncrement (nunitsUint 0xFFFFFFFF)).toInt = 16 ∧
      (∃ r h', freshHeap.mallocUint 0xFFFFFFFF true = some (r, h') ∧ 0 < r ∧ h'.brk ≤ r) ∧
      (morecoreIncrement (nunitsUint 0x80000000)).toInt < 0 := by
  have hreach : umSys.Reachable freshHeap := .init ⟨rfl, rfl, Nat.one_pos, rfl⟩
  -- `malloc(0xffffffff)`: `sbrk(16)` adds one header, and the block of
  -- `0x10000001` headers `morecore` puts at the old break is taken whole
  have hrun : (freshHeap.mallocUint 0xFFFFFFFF true).map (fun r => (r.1, r.2.brk)) =
      some (2, 2) := by
    decide +kernel
  refine ⟨hreach, by decide, ?_, by decide⟩
  cases hm : freshHeap.mallocUint 0xFFFFFFFF true with
  | none =>
    rw [hm] at hrun
    cases hrun
  | some r =>
    rw [hm, Option.map_some, Option.some.injEq, Prod.mk.injEq] at hrun
    obtain ⟨hr, hbrk⟩ := hrun
    exact ⟨r.1, r.2, rfl, by omega, by omega⟩

end Xv6.User
