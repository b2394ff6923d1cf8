import Mathlib.Data.Fintype.Card
import Mathlib.Data.List.Nodup
import Mathlib.Tactic.Choose
import Xv6.Lib.Reach
import Xv6.Lib.Ring

/-!
# The virtio disk driver's descriptors and rings (`kernel/virtio_disk.c`)

The driver hands requests to the device through `NUM` descriptors and two
rings. A request is a chain of three descriptors linked by `next` with
`VRING_DESC_F_NEXT`; the driver publishes the chain's head in the avail ring,
and the device, once it has served the chain, writes the head to the used
ring. `disk.free[]` says which descriptors are free; `disk.info[head]` names
the request's buffer.

Every piece of driver code runs holding `disk.vdisk_lock`, so each stretch
between `acquire` and `release` or `sleep` is one step of `Sys.step`:

* `virtio_disk_rw` up to its first `sleep` (`rwAlloc`): `alloc3_desc`, then
  either `sleep(&disk.free[0], …)` or the formatting of the chain, its
  publication and `sleep(b, …)`;
* `virtio_disk_rw` after a `sleep(b, …)` returns (`rwWake`): sleep again
  while `b->disk == 1`, else free the chain;
* one pass of `virtio_disk_intr`'s loop (`intrPass`); the whole call is a run
  of passes (`virtioDiskIntr_run`), and a pass may also be interleaved with
  the device.

A `sleep` is modelled as a state a process may leave at any time: every
loop around a `sleep` re-checks its condition, so waking early only adds
runs, and `wakeup` need not be modelled. A request's `struct buf` is held by
the process that called `virtio_disk_rw` (under its sleep-lock) until the
call returns, so the buffer is named by that process: `info[i].b` is
`some p`, and `b->disk` is `Sys.bdisk p`.

The device is two events of its own: it takes the next avail entry
(`devTake`) and completes any taken chain, in any order (`devComplete`),
writing the status byte `0` and the head to the used ring.

The results:

* `alloc3Desc_spec` — `alloc3_desc` returns three distinct descriptors that
  were free, or leaves `free[]` as it found it;
* `freeChainLoop_linked` — `free_chain` from a linked chain of descriptors in
  use frees exactly that chain; `freeChain_ne_fuel` — it never runs out of
  passes;
* `Inv` — the invariant of every reachable state (`inv_reachable`): a
  descriptor is in use iff it is on the chain of exactly one request, chains
  are linked as formatted, and the heads between the rings' counters and in
  the device are exactly the heads of the requests whose buffer the disk
  owns; `Inv.length_queued` — there are at most two;
* `Inv.step_ne_error` — no step of such a state panics;
* `virtioDiskIntr_run`, `virtioDiskIntr_ne_fuel` — a whole interrupt is a run
  of passes and never runs out of them;
* `virtio_descriptor_bookkeeping` — the above over every reachable state.
-/

namespace Xv6.Kernel.Virtio

open Xv6.Lib

/-- `NUM`: this many virtio descriptors. -/
def num : Nat := 8

instance : NeZero num := ⟨by decide⟩

/-- `VRING_DESC_F_NEXT`: chained with another descriptor. -/
def vringDescFNext : UInt16 := 1

/-- `VRING_DESC_F_WRITE`: the device writes (vs read). -/
def vringDescFWrite : UInt16 := 2

/-- The fields of `struct virtq_desc` the driver reads back; `addr` and `len`
only the device reads. -/
structure Desc where
  flags : UInt16
  next : UInt16
  deriving DecidableEq, Repr

/-- `struct virtq_avail`: the driver writes chain heads to `ring`. -/
structure Avail where
  idx : UInt16
  ring : Fin num → UInt16

/-- `struct virtq_used`: `ring` holds the `id` of each used element. -/
structure Used where
  idx : UInt16
  ring : Fin num → UInt32

/-- An entry of `disk.info`: the buffer of the request whose chain starts at
this descriptor, and the status byte the device writes. -/
structure Info (Pid : Type) where
  b : Option Pid
  status : UInt8

/-- The fields of `struct disk` the driver uses; `ops[]` only the device reads. -/
structure Disk (Pid : Type) where
  desc : Fin num → Desc
  avail : Avail
  used : Used
  free : Fin num → Bool
  /-- `disk.used_idx`: how far the driver has looked in the used ring. -/
  usedIdx : UInt16
  info : Fin num → Info Pid

variable {Pid : Type}

/-! ## Descriptors -/

/-- `alloc_desc`: the first free descriptor, marked non-free; `none` is the
`-1` of a full table. -/
def allocDesc (d : Disk Pid) : Option (Fin num) × Disk Pid :=
  match (List.finRange num).find? (fun i => d.free i) with
  | some i => (some i, { d with free := Function.update d.free i false })
  | none => (none, d)

/-- `free_desc`: mark descriptor `i` free, after its two panics. -/
def freeDesc (d : Disk Pid) (i : Nat) : Except String (Disk Pid) :=
  if h : i < num then
    if d.free ⟨i, h⟩ then .error "free_desc 2"
    else .ok { d with
      desc := Function.update d.desc ⟨i, h⟩ ⟨0, 0⟩
      free := Function.update d.free ⟨i, h⟩ true }
  else .error "free_desc 1"

/-- `free_chain`'s loop with `fuel` passes: free `i`, and go on to its `next`
while `VRING_DESC_F_NEXT` is set. -/
def freeChainLoop : Nat → Disk Pid → Nat → Except String (Disk Pid)
  | 0, _, _ => .error "free_chain: out of fuel"
  | fuel + 1, d, i => do
    -- `desc[i]` is read before `free_desc(i)` checks `i`; for `i ≥ NUM` the
    -- value read is never used, as `free_desc` panics first
    let dsc := d.desc (Fin.ofNat num i)
    let d ← freeDesc d i
    if dsc.flags &&& vringDescFNext ≠ 0 then freeChainLoop fuel d dsc.next.toNat
    else pure d

/-- `free_chain`: every pass frees a descriptor or panics, so `NUM + 1`
passes are never all used (`freeChain_ne_fuel`). -/
def freeChain (d : Disk Pid) (i : Nat) : Except String (Disk Pid) :=
  freeChainLoop (num + 1) d i

/-- A pass of `alloc3_desc`'s loop: a descriptor, or, when none is left,
`free_desc` of the ones `taken` before it and failure. -/
def alloc3Pass (d : Disk Pid) (taken : List (Fin num)) :
    Except String (Option (Fin num) × Disk Pid) :=
  match allocDesc d with
  | (some i, d) => .ok (some i, d)
  | (none, d) => do
    let d ← taken.foldlM (fun d j => freeDesc d j.val) d
    pure (none, d)

/-- `alloc3_desc`: the loop's three passes; `some` is a return of `0` with
`idx[0..2]` filled in, `none` a return of `-1`. -/
def alloc3Desc (d : Disk Pid) :
    Except String (Option (Fin num × Fin num × Fin num) × Disk Pid) := do
  match ← alloc3Pass d [] with
  | (none, d) => pure (none, d)
  | (some i0, d) =>
  match ← alloc3Pass d [i0] with
  | (none, d) => pure (none, d)
  | (some i1, d) =>
  match ← alloc3Pass d [i0, i1] with
  | (none, d) => pure (none, d)
  | (some i2, d) => pure (some (i0, i1, i2), d)

/-- `virtio_disk_rw` from a successful `alloc3_desc` to `sleep(b, …)`:
format the three descriptors, record the buffer in `info[idx[0]]` and
publish the head in the avail ring. -/
def submit (d : Disk Pid) (p : Pid) (write : Bool) (i0 i1 i2 : Fin num) : Disk Pid :=
  let desc := Function.update d.desc i0 ⟨vringDescFNext, UInt16.ofNat i1.val⟩
  let desc := Function.update desc i1
    ⟨(if write then 0 else vringDescFWrite) ||| vringDescFNext, UInt16.ofNat i2.val⟩
  let desc := Function.update desc i2 ⟨vringDescFWrite, 0⟩
  { d with
    desc := desc
    info := Function.update d.info i0 ⟨some p, 0xff⟩
    avail := ⟨d.avail.idx + 1,
      Function.update d.avail.ring (Fin.ofNat num d.avail.idx.toNat) (UInt16.ofNat i0.val)⟩ }

/-! ## What the descriptor operations do -/

namespace Disk

/-- `d` with the descriptors `l` marked in use. -/
def take (d : Disk Pid) (l : List (Fin num)) : Disk Pid :=
  { d with free := fun i => if i ∈ l then false else d.free i }

/-- `d` with the descriptors `l` zeroed and marked free, as `free_desc` leaves them. -/
def release (d : Disk Pid) (l : List (Fin num)) : Disk Pid :=
  { d with
    desc := fun i => if i ∈ l then ⟨0, 0⟩ else d.desc i
    free := fun i => if i ∈ l then true else d.free i }

theorem take_nil (d : Disk Pid) : d.take [] = d := rfl

theorem release_nil (d : Disk Pid) : d.release [] = d := rfl

theorem release_release (d : Disk Pid) (l l' : List (Fin num)) :
    (d.release l).release l' = d.release (l ++ l') := by
  simp only [release, List.mem_append]
  congr 1 <;> funext i <;> by_cases h : i ∈ l' <;> simp [h]

/-- Giving back what a failed `alloc3_desc` took restores `free[]`. -/
theorem take_release {d : Disk Pid} {l : List (Fin num)} (hl : ∀ i ∈ l, d.free i = true) :
    (d.take l).release l = { d with desc := fun i => if i ∈ l then ⟨0, 0⟩ else d.desc i } := by
  simp only [take, release, Disk.mk.injEq, true_and, and_true]
  funext i
  by_cases h : i ∈ l
  · simp [h, hl i h]
  · simp [h]

end Disk

section Ops

variable {d d' : Disk Pid}

theorem allocDesc_some {i : Fin num} (h : allocDesc d = (some i, d')) :
    d.free i = true ∧ d' = { d with free := Function.update d.free i false } := by
  unfold allocDesc at h
  split at h
  · rename_i j hj
    simp only [Prod.mk.injEq, Option.some.injEq] at h
    obtain ⟨rfl, rfl⟩ := h
    exact ⟨List.find?_some hj, rfl⟩
  · simp at h

theorem allocDesc_none (h : allocDesc d = (none, d')) : d' = d ∧ ∀ i, d.free i = false := by
  unfold allocDesc at h
  split at h
  · simp at h
  · rename_i hn
    simp only [Prod.mk.injEq, true_and] at h
    refine ⟨h.symm, fun i => ?_⟩
    simpa using List.find?_eq_none.mp hn i (List.mem_finRange i)

/-- `free_desc` of a descriptor in use. -/
theorem freeDesc_of_used {i : Fin num} (h : d.free i = false) :
    freeDesc d i.val = .ok (d.release [i]) := by
  simp only [freeDesc, i.isLt, dite_true, Fin.eta, h, Bool.false_eq_true, if_false,
    Disk.release, List.mem_singleton]
  congr 2 <;> funext j <;> by_cases hj : j = i <;> simp [hj]

/-- What a `free_desc` that returns did. -/
theorem freeDesc_eq_ok {i : Nat} (h : freeDesc d i = .ok d') :
    ∃ j : Fin num, j.val = i ∧ d.free j = false ∧ d' = d.release [j] := by
  by_cases hi : i < num
  · have hf : d.free ⟨i, hi⟩ = false := by
      by_contra hc
      rw [Bool.not_eq_false] at hc
      simp [freeDesc, hi, hc] at h
    have hok : freeDesc d i = .ok (d.release [⟨i, hi⟩]) := freeDesc_of_used hf
    rw [hok] at h
    exact ⟨⟨i, hi⟩, rfl, hf, (Except.ok.inj h).symm⟩
  · simp [freeDesc, hi] at h

/-- `free_desc` over distinct descriptors in use frees exactly them. -/
theorem foldlM_freeDesc (taken : List (Fin num)) :
    ∀ d : Disk Pid, taken.Nodup → (∀ j ∈ taken, d.free j = false) →
      taken.foldlM (fun d j => freeDesc d j.val) d = .ok (d.release taken) := by
  induction taken with
  | nil => intro d _ _; rfl
  | cons j rest ih =>
    intro d hnd hf
    rw [List.nodup_cons] at hnd
    have hrest : ∀ k ∈ rest, (d.release [j]).free k = false := by
      intro k hk
      have hkj : k ≠ j := fun e => hnd.1 (e ▸ hk)
      simpa [Disk.release, hkj] using hf k (List.mem_cons_of_mem j hk)
    rw [List.foldlM_cons, freeDesc_of_used (hf j List.mem_cons_self)]
    simp only [bind, Except.bind]
    rw [ih _ hnd.2 hrest, Disk.release_release]
    rfl

/-- A pass of `alloc3_desc` after the call took the distinct descriptors `l`:
one more descriptor, free at the start, or `l` given back. -/
theorem alloc3Pass_take (d : Disk Pid) (l : List (Fin num)) (hnd : l.Nodup)
    (hl : ∀ i ∈ l, d.free i = true) :
    (∃ i, i ∉ l ∧ d.free i = true ∧ alloc3Pass (d.take l) l = .ok (some i, d.take (l ++ [i]))) ∨
    alloc3Pass (d.take l) l =
      .ok (none, { d with desc := fun i => if i ∈ l then ⟨0, 0⟩ else d.desc i }) := by
  unfold alloc3Pass
  split
  · rename_i i d₁ hsome
    obtain ⟨hfree, rfl⟩ := allocDesc_some hsome
    have hi : i ∉ l := fun h => by simp [Disk.take, h] at hfree
    refine .inl ⟨i, hi, by simpa [Disk.take, hi] using hfree, ?_⟩
    simp only [Disk.take, List.mem_append, List.mem_singleton]
    congr 3
    funext j
    by_cases hj : j = i <;> simp [hj]
  · rename_i d₁ hnone
    obtain ⟨rfl, -⟩ := allocDesc_none hnone
    have hused : ∀ j ∈ l, (d.take l).free j = false := by
      intro j hj
      simp [Disk.take, hj]
    refine .inr ?_
    simp only [bind, Except.bind]
    rw [foldlM_freeDesc l _ hnd hused, Disk.take_release hl]
    rfl

/-- `alloc3_desc` returns three distinct descriptors that were free, marked in
use, or leaves `free[]` as it was, having zeroed only free descriptors. -/
theorem alloc3Desc_spec (d : Disk Pid) :
    (∃ i0 i1 i2, [i0, i1, i2].Nodup ∧ (∀ i ∈ [i0, i1, i2], d.free i = true) ∧
      alloc3Desc d = .ok (some (i0, i1, i2), d.take [i0, i1, i2])) ∨
    ∃ l : List (Fin num), (∀ i ∈ l, d.free i = true) ∧
      alloc3Desc d = .ok (none, { d with desc := fun i => if i ∈ l then ⟨0, 0⟩ else d.desc i }) := by
  unfold alloc3Desc
  rcases alloc3Pass_take d [] List.nodup_nil (by simp) with ⟨i0, -, h0, hp0⟩ | hp0
  · rw [Disk.take_nil, List.nil_append] at hp0
    have hnd0 : [i0].Nodup := List.nodup_singleton i0
    rcases alloc3Pass_take d [i0] hnd0 (by simpa using h0) with ⟨i1, h1n, h1, hp1⟩ | hp1
    · have h10 : i1 ≠ i0 := by simpa using h1n
      have hnd1 : [i0, i1].Nodup := by simp [h10.symm]
      rw [List.singleton_append] at hp1
      rcases alloc3Pass_take d [i0, i1] hnd1 (by simp [h0, h1]) with ⟨i2, h2n, h2, hp2⟩ | hp2
      · obtain ⟨h20, h21⟩ : i2 ≠ i0 ∧ i2 ≠ i1 := by simpa using h2n
        simp only [List.cons_append, List.nil_append] at hp2
        refine .inl ⟨i0, i1, i2, by simp [h10.symm, h20.symm, h21.symm], by simp [h0, h1, h2], ?_⟩
        simp only [bind, Except.bind, hp0, hp1, hp2]
        rfl
      · refine .inr ⟨[i0, i1], by simp [h0, h1], ?_⟩
        simp only [bind, Except.bind, hp0, hp1, hp2]
        rfl
    · refine .inr ⟨[i0], by simp [h0], ?_⟩
      simp only [bind, Except.bind, hp0, hp1]
      rfl
  · refine .inr ⟨[], by simp, ?_⟩
    rw [Disk.take_nil] at hp0
    simp only [bind, Except.bind, hp0]
    rfl

end Ops

/-! ## Chains -/

/-- A chain as `free_chain` follows it: `VRING_DESC_F_NEXT` and `next` on
every descriptor but the last, no `VRING_DESC_F_NEXT` on the last. -/
def Linked (desc : Fin num → Desc) : List (Fin num) → Prop
  | [] => False
  | [i] => (desc i).flags &&& vringDescFNext = 0
  | i :: j :: rest =>
    (desc i).flags &&& vringDescFNext ≠ 0 ∧ (desc i).next.toNat = j.val ∧ Linked desc (j :: rest)

/-- A chain depends only on its own descriptors. -/
theorem Linked.congr {desc desc' : Fin num → Desc} :
    ∀ {l : List (Fin num)}, Linked desc l → (∀ i ∈ l, desc' i = desc i) → Linked desc' l
  | [], h, _ => h
  | [i], h, he => by
    simp only [Linked] at h ⊢
    rw [he i List.mem_cons_self]
    exact h
  | i :: j :: rest, ⟨hn, hnx, hl⟩, he => by
    refine ⟨?_, ?_, Linked.congr hl fun k hk => he k (List.mem_cons_of_mem i hk)⟩
    · rw [he i List.mem_cons_self]; exact hn
    · rw [he i List.mem_cons_self]; exact hnx

/-- `free_chain`'s loop from the head of a linked chain of distinct
descriptors in use frees exactly that chain, given a pass per descriptor. -/
theorem freeChainLoop_linked (rest : List (Fin num)) :
    ∀ (i : Fin num) (fuel : Nat) (d : Disk Pid), Linked d.desc (i :: rest) →
      (i :: rest).Nodup → (∀ j ∈ i :: rest, d.free j = false) → rest.length < fuel →
      freeChainLoop fuel d i.val = .ok (d.release (i :: rest)) := by
  induction rest with
  | nil =>
    intro i fuel d hl _ hf hfuel
    obtain ⟨fuel, rfl⟩ : ∃ f, fuel = f + 1 := ⟨fuel - 1, by simp at hfuel; omega⟩
    have hlast : (d.desc i).flags &&& vringDescFNext = 0 := hl
    simp only [freeChainLoop, Fin.ofNat_val_eq_self, freeDesc_of_used (hf i List.mem_cons_self),
      bind, Except.bind, hlast, ne_eq, not_true_eq_false, if_false]
    rfl
  | cons j rest ih =>
    intro i fuel d hl hnd hf hfuel
    obtain ⟨fuel, rfl⟩ : ∃ f, fuel = f + 1 := ⟨fuel - 1, by simp at hfuel; omega⟩
    obtain ⟨hn, hnx, hl'⟩ := hl
    have hi : i ∉ j :: rest := (List.nodup_cons.mp hnd).1
    -- the rest of the chain is untouched by freeing its head
    have hl₁ : Linked (d.release [i]).desc (j :: rest) :=
      Linked.congr hl' fun k hk => by
        have hki : k ≠ i := fun e => hi (e ▸ hk)
        simp [Disk.release, hki]
    have hf₁ : ∀ k ∈ j :: rest, (d.release [i]).free k = false := by
      intro k hk
      have hki : k ≠ i := fun e => hi (e ▸ hk)
      simpa [Disk.release, hki] using hf k (List.mem_cons_of_mem i hk)
    have hrec := ih j fuel (d.release [i]) hl₁ (List.nodup_cons.mp hnd).2 hf₁
      (by simp at hfuel ⊢; omega)
    simp only [freeChainLoop, Fin.ofNat_val_eq_self, freeDesc_of_used (hf i List.mem_cons_self),
      bind, Except.bind, hn, ne_eq, not_false_eq_true, if_true, hnx]
    rw [hrec, Disk.release_release]
    rfl

/-- The descriptors in use. -/
def Disk.inUse (d : Disk Pid) : Finset (Fin num) := Finset.univ.filter fun i => d.free i = false

theorem card_inUse_release {d : Disk Pid} {i : Fin num} (h : d.free i = false) :
    (d.release [i]).inUse.card + 1 = d.inUse.card := by
  have herase : (d.release [i]).inUse = d.inUse.erase i := by
    ext j
    by_cases hj : j = i <;> simp [Disk.inUse, Disk.release, hj]
  rw [herase, Finset.card_erase_add_one (by simp [Disk.inUse, h])]

theorem freeDesc_ne_fuel {d : Disk Pid} {i : Nat} {e : String} (h : freeDesc d i = .error e) :
    e ≠ "free_chain: out of fuel" := by
  unfold freeDesc at h
  split_ifs at h <;> cases h <;> decide

/-- Every pass of `free_chain` frees a descriptor in use or panics, so `k + 1`
passes are enough when at most `k` descriptors are in use. -/
theorem freeChainLoop_ne_fuel (k : Nat) :
    ∀ (d : Disk Pid) (i : Nat), d.inUse.card ≤ k →
      freeChainLoop (k + 1) d i ≠ .error "free_chain: out of fuel" := by
  induction k with
  | zero =>
    intro d i hk
    simp only [freeChainLoop]
    cases hf : freeDesc d i with
    | error e => exact fun h => freeDesc_ne_fuel hf (Except.error.inj h)
    | ok d₁ =>
      -- no descriptor is in use, so `free_desc` cannot have returned
      obtain ⟨j, -, hj, -⟩ := freeDesc_eq_ok hf
      have hmem : j ∈ d.inUse := by simp [Disk.inUse, hj]
      exact absurd (Finset.card_pos.mpr ⟨j, hmem⟩) (by omega)
  | succ k ih =>
    intro d i hk
    simp only [freeChainLoop]
    cases hf : freeDesc d i with
    | error e => exact fun h => freeDesc_ne_fuel hf (Except.error.inj h)
    | ok d₁ =>
      obtain ⟨j, -, hj, rfl⟩ := freeDesc_eq_ok hf
      have hcard := card_inUse_release hj
      simp only [bind, Except.bind]
      split
      · exact ih _ _ (by omega)
      · exact fun h => nomatch h

/-- `free_chain` never runs out of passes. -/
theorem freeChain_ne_fuel (d : Disk Pid) (i : Nat) :
    freeChain d i ≠ .error "free_chain: out of fuel" :=
  freeChainLoop_ne_fuel num d i ((Finset.card_le_univ _).trans_eq (Fintype.card_fin num))

/-! ## Requests, interrupts and the device -/

/-- Where a process is in `virtio_disk_rw`. -/
inductive Req where
  | idle
  /-- asleep on `&disk.free[0]` after `alloc3_desc` failed -/
  | allocating (write : Bool)
  /-- asleep on `b`, with the chain `idx[0..2]` submitted -/
  | waiting (i0 i1 i2 : Fin num)
  deriving DecidableEq, Repr

/-- The driver's state, the buffers' `disk` flags, where each process is,
and the device's own state. -/
structure Sys (Pid : Type) where
  disk : Disk Pid
  /-- `b->disk` of the buffer of each process -/
  bdisk : Pid → Bool
  req : Pid → Req
  /-- the device: the avail counter it has read up to -/
  seen : UInt16
  /-- the device: the heads it has taken and not completed -/
  busy : List UInt16

/-- The steps of the system. -/
inductive Ev (Pid : Type) where
  /-- `p` calls `virtio_disk_rw` -/
  | rw (p : Pid) (write : Bool)
  /-- `p` returns from `sleep(&disk.free[0], …)` -/
  | retry (p : Pid)
  /-- `p` returns from `sleep(b, …)` -/
  | wake (p : Pid)
  /-- a pass of `virtio_disk_intr`'s loop -/
  | intr
  | devTake
  | devComplete (h : UInt16)

/-- `virtio_disk_rw` up to its first `sleep`. -/
def rwAlloc (σ : Sys Pid) (p : Pid) (write : Bool) [DecidableEq Pid] :
    Except String (Sys Pid) := do
  match ← alloc3Desc σ.disk with
  | (none, d) => pure { σ with disk := d, req := Function.update σ.req p (.allocating write) }
  | (some (i0, i1, i2), d) =>
    pure { σ with
      disk := submit d p write i0 i1 i2
      bdisk := Function.update σ.bdisk p true
      req := Function.update σ.req p (.waiting i0 i1 i2) }

/-- `virtio_disk_rw` after `sleep(b, …)` returns: sleep again while
`b->disk == 1`, else clear `info[idx[0]].b` and free the chain. -/
def rwWake (σ : Sys Pid) (p : Pid) (i0 : Fin num) [DecidableEq Pid] :
    Except String (Sys Pid) :=
  if σ.bdisk p then pure σ
  else do
    let d := { σ.disk with info := Function.update σ.disk.info i0 { σ.disk.info i0 with b := none } }
    let d ← freeChain d i0.val
    pure { σ with disk := d, req := Function.update σ.req p .idle }

/-- One pass of `virtio_disk_intr`'s loop, taken while `used_idx != used->idx`. -/
def intrPass (σ : Sys Pid) [DecidableEq Pid] : Except String (Sys Pid) :=
  let d := σ.disk
  let id := (d.used.ring (Fin.ofNat num d.usedIdx.toNat)).toNat
  if h : id < num then
    if (d.info ⟨id, h⟩).status ≠ 0 then .error "virtio_disk_intr status"
    else match (d.info ⟨id, h⟩).b with
      | some p => .ok { σ with
          bdisk := Function.update σ.bdisk p false
          disk := { d with usedIdx := d.usedIdx + 1 } }
      -- `b->disk = 0` through a null `b`
      | none => .error "virtio_disk_intr: null buf"
  -- `disk.info[id]` past the array
  else .error "virtio_disk_intr: id out of range"

/-- `virtio_disk_intr`'s loop with `fuel` passes. -/
def intrLoop [DecidableEq Pid] : Nat → Sys Pid → Except String (Sys Pid)
  | 0, _ => .error "virtio_disk_intr: out of fuel"
  | fuel + 1, σ =>
    if σ.disk.usedIdx = σ.disk.used.idx then .ok σ
    else do intrLoop fuel (← intrPass σ)

/-- `virtio_disk_intr`: each pass moves `used_idx` one on, so the loop ends
within `2^16` passes. -/
def virtioDiskIntr [DecidableEq Pid] (σ : Sys Pid) : Except String (Sys Pid) :=
  intrLoop (2 ^ 16) σ

/-- The device reads the next avail entry. -/
def devTake (σ : Sys Pid) : Sys Pid :=
  { σ with
    seen := σ.seen + 1
    busy := σ.busy ++ [σ.disk.avail.ring (Fin.ofNat num σ.seen.toNat)] }

/-- The device completes the chain at head `h`: status `0`, then the head in
the used ring. -/
def devComplete (σ : Sys Pid) (h : Fin num) : Sys Pid :=
  let d := σ.disk
  { σ with
    busy := σ.busy.erase (UInt16.ofNat h.val)
    disk := { d with
      info := Function.update d.info h { d.info h with status := 0 }
      used := ⟨d.used.idx + 1,
        Function.update d.used.ring (Fin.ofNat num d.used.idx.toNat) (UInt32.ofNat h.val)⟩ } }

namespace Sys

variable [DecidableEq Pid]

/-- The disk after `virtio_disk_init`, every process idle. -/
def init : Sys Pid where
  disk := {
    desc := fun _ => ⟨0, 0⟩
    avail := ⟨0, fun _ => 0⟩
    used := ⟨0, fun _ => 0⟩
    free := fun _ => true
    usedIdx := 0
    info := fun _ => ⟨none, 0⟩ }
  bdisk := fun _ => false
  req := fun _ => .idle
  seen := 0
  busy := []

/-- One step: `none` when it cannot happen, an error when the kernel panics. -/
def step (σ : Sys Pid) : Ev Pid → Option (Except String (Sys Pid))
  | .rw p write => if σ.req p = .idle then some (rwAlloc σ p write) else none
  | .retry p =>
    match σ.req p with
    | .allocating write => some (rwAlloc σ p write)
    | _ => none
  | .wake p =>
    match σ.req p with
    | .waiting i0 _ _ => some (rwWake σ p i0)
    | _ => none
  | .intr => if σ.disk.usedIdx = σ.disk.used.idx then none else some (intrPass σ)
  | .devTake => if σ.seen = σ.disk.avail.idx then none else some (.ok (devTake σ))
  | .devComplete h =>
    if hh : h.toNat < num then
      if h ∈ σ.busy then some (.ok (devComplete σ ⟨h.toNat, hh⟩)) else none
    else none

end Sys

/-- The driver and the device as a transition system: runs that do not panic. -/
def virtioSys (Pid : Type) [DecidableEq Pid] : TSys (Sys Pid) (Ev Pid) where
  init σ := σ = Sys.init
  step σ e σ' := σ.step e = some (.ok σ')

/-! ## The rings between 16-bit counters

`avail->idx` and `used_idx` are `uint16` and the ring cell of counter `c` is
`c % NUM`. As `NUM` divides `2^16`, the cells between two counters read the
same before and after the counters wrap. -/

theorem num_dvd : num ∣ 2 ^ 16 := ⟨2 ^ 13, by decide⟩

/-- The cells of `ring` from counter `r` up to counter `w`. -/
def ringQ {α : Type} (ring : Fin num → α) (r w : UInt16) : List α :=
  cells ring r.toNat (w - r).toNat

@[simp] theorem ringQ_self {α : Type} (ring : Fin num → α) (r : UInt16) : ringQ ring r r = [] := by
  simp [ringQ]

@[simp] theorem length_ringQ {α : Type} (ring : Fin num → α) (r w : UInt16) :
    (ringQ ring r w).length = (w - r).toNat := by
  simp [ringQ]

/-- Writing at counter `w` and advancing it appends, short of a full ring. -/
theorem ringQ_push {α : Type} (ring : Fin num → α) {r w : UInt16} (h : (w - r).toNat < num)
    (x : α) :
    ringQ (Function.update ring (Fin.ofNat num w.toNat) x) r (w + 1) = ringQ ring r w ++ [x] := by
  have hr := UInt16.toNat_lt r
  have hw := UInt16.toNat_lt w
  have h8 : num = 8 := rfl
  have hlen : (w + 1 - r).toNat = (w - r).toNat + 1 := by
    rw [UInt16.toNat_sub] at h
    simp only [UInt16.toNat_sub, UInt16.toNat_add, UInt16.reduceToNat]
    omega
  -- the cell of `w` is the cell `(w - r)` on from `r`, across a wrap too
  have hslot : Fin.ofNat num w.toNat = Fin.ofNat num (r.toNat + (w - r).toNat) := by
    apply Fin.ext
    simp only [Fin.val_ofNat, UInt16.toNat_sub, h8]
    omega
  rw [ringQ, hlen, hslot, cells_push ring h]
  rfl

/-- Moving the lower counter one on shortens a nonempty stretch by one. -/
theorem toNat_sub_succ {r w : UInt16} (h : r ≠ w) : (w - r).toNat = (w - (r + 1)).toNat + 1 := by
  have hr := UInt16.toNat_lt r
  have hw := UInt16.toNat_lt w
  have hne : r.toNat ≠ w.toNat := fun e => h (UInt16.toNat_inj.mp e)
  simp only [UInt16.toNat_sub, UInt16.toNat_add, UInt16.reduceToNat]
  omega

/-- The cell at counter `r` is the first of a nonempty stretch. -/
theorem ringQ_pop {α : Type} (ring : Fin num → α) {r w : UInt16} (h : r ≠ w) :
    ringQ ring r w = ring (Fin.ofNat num r.toNat) :: ringQ ring (r + 1) w := by
  have h8 : num = 8 := rfl
  rw [ringQ, toNat_sub_succ h, cells_cons, ringQ]
  congr 1
  apply cells_congr
  simp only [UInt16.toNat_add, UInt16.reduceToNat, h8]
  omega

/-! ## What each step does -/

/-- The descriptors a request holds, in chain order. -/
def Req.chain : Req → List (Fin num)
  | .waiting i0 i1 i2 => [i0, i1, i2]
  | _ => []

namespace Sys

variable [DecidableEq Pid] {σ σ' : Sys Pid} {p : Pid}

/-- The heads published in the avail ring that the device has not read. -/
def availQ (σ : Sys Pid) : List Nat :=
  (ringQ σ.disk.avail.ring σ.seen σ.disk.avail.idx).map UInt16.toNat

/-- The heads in the used ring that the driver has not looked at. -/
def usedQ (σ : Sys Pid) : List Nat :=
  (ringQ σ.disk.used.ring σ.disk.usedIdx σ.disk.used.idx).map UInt32.toNat

/-- The heads the device has yet to take, has taken, and has completed
unseen by the driver. -/
def queued (σ : Sys Pid) : List Nat :=
  σ.availQ ++ σ.busy.map UInt16.toNat ++ σ.usedQ

theorem step_rw {w : Bool} (h : σ.step (.rw p w) = some (.ok σ')) :
    σ.req p = .idle ∧ rwAlloc σ p w = .ok σ' := by
  simp only [step] at h
  split_ifs at h with hp
  exact ⟨hp, Option.some.inj h⟩

theorem step_retry (h : σ.step (.retry p) = some (.ok σ')) :
    ∃ w, σ.req p = .allocating w ∧ rwAlloc σ p w = .ok σ' := by
  simp only [step] at h
  split at h
  · rename_i w hp
    exact ⟨w, hp, Option.some.inj h⟩
  · cases h

theorem step_wake (h : σ.step (.wake p) = some (.ok σ')) :
    ∃ i0 i1 i2, σ.req p = .waiting i0 i1 i2 ∧ rwWake σ p i0 = .ok σ' := by
  simp only [step] at h
  split at h
  · rename_i i0 i1 i2 hp
    exact ⟨i0, i1, i2, hp, Option.some.inj h⟩
  · cases h

theorem step_intr (h : σ.step .intr = some (.ok σ')) :
    σ.disk.usedIdx ≠ σ.disk.used.idx ∧ intrPass σ = .ok σ' := by
  simp only [step] at h
  split_ifs at h with hne
  exact ⟨hne, Option.some.inj h⟩

theorem step_devTake (h : σ.step .devTake = some (.ok σ')) :
    σ.seen ≠ σ.disk.avail.idx ∧ σ' = devTake σ := by
  simp only [step] at h
  split_ifs at h with hne
  exact ⟨hne, (Except.ok.inj (Option.some.inj h)).symm⟩

theorem step_devComplete {h : UInt16} (hs : σ.step (.devComplete h) = some (.ok σ')) :
    ∃ hh : h.toNat < num, h ∈ σ.busy ∧ σ' = devComplete σ ⟨h.toNat, hh⟩ := by
  simp only [step] at hs
  split_ifs at hs with hh hb
  exact ⟨hh, hb, (Except.ok.inj (Option.some.inj hs)).symm⟩

/-- What a `virtio_disk_rw` up to its first `sleep` did: gave back what it
took and slept, or submitted three distinct descriptors that were free. -/
theorem rwAlloc_spec {w : Bool} (h : rwAlloc σ p w = .ok σ') :
    (∃ l : List (Fin num), (∀ i ∈ l, σ.disk.free i = true) ∧ σ' = { σ with
      disk := { σ.disk with desc := fun i => if i ∈ l then ⟨0, 0⟩ else σ.disk.desc i }
      req := Function.update σ.req p (.allocating w) }) ∨
    ∃ i0 i1 i2, [i0, i1, i2].Nodup ∧ (∀ i ∈ [i0, i1, i2], σ.disk.free i = true) ∧ σ' = { σ with
      disk := submit (σ.disk.take [i0, i1, i2]) p w i0 i1 i2
      bdisk := Function.update σ.bdisk p true
      req := Function.update σ.req p (.waiting i0 i1 i2) } := by
  unfold rwAlloc at h
  rcases alloc3Desc_spec σ.disk with ⟨i0, i1, i2, hnd, hf, ha⟩ | ⟨l, hl, ha⟩
  · simp only [ha, bind, Except.bind] at h
    exact .inr ⟨i0, i1, i2, hnd, hf, (Except.ok.inj h).symm⟩
  · simp only [ha, bind, Except.bind] at h
    exact .inl ⟨l, hl, (Except.ok.inj h).symm⟩

/-- What `virtio_disk_rw` after `sleep(b, …)` did: slept again, or freed the
chain from `idx[0]` once the disk gave the buffer back. -/
theorem rwWake_spec {i0 : Fin num} (h : rwWake σ p i0 = .ok σ') :
    (σ.bdisk p = true ∧ σ' = σ) ∨
    (σ.bdisk p = false ∧ ∃ d, freeChain { σ.disk with
        info := Function.update σ.disk.info i0 { σ.disk.info i0 with b := none } } i0.val = .ok d ∧
      σ' = { σ with disk := d, req := Function.update σ.req p .idle }) := by
  unfold rwWake at h
  split_ifs at h with hb
  · exact .inl ⟨hb, (Except.ok.inj h).symm⟩
  · simp only [bind, Except.bind] at h
    split at h
    · cases h
    · rename_i d hd
      exact .inr ⟨by simpa using hb, d, hd, (Except.ok.inj h).symm⟩

/-- What a pass of `virtio_disk_intr` did: the used entry at `used_idx` is a
head whose status is `0` and whose buffer is given back. -/
theorem intrPass_spec (h : intrPass σ = .ok σ') :
    ∃ (i : Fin num) (q : Pid),
      (σ.disk.used.ring (Fin.ofNat num σ.disk.usedIdx.toNat)).toNat = i.val ∧
      (σ.disk.info i).status = 0 ∧ (σ.disk.info i).b = some q ∧
      σ' = { σ with
        bdisk := Function.update σ.bdisk q false
        disk := { σ.disk with usedIdx := σ.disk.usedIdx + 1 } } := by
  unfold intrPass at h
  dsimp only at h
  split_ifs at h with hlt hst
  split at h
  · rename_i q hq
    exact ⟨_, q, rfl, by simpa using hst, hq, (Except.ok.inj h).symm⟩
  · cases h

end Sys

/-! ## The invariant -/

/-- A descriptor index read back from a 16-bit field. -/
theorem toNat_ofNat16 (i : Fin num) : (UInt16.ofNat i.val).toNat = i.val := by
  have h8 : num = 8 := rfl
  have := i.isLt
  rw [UInt16.toNat_ofNat']
  omega

/-- A descriptor index read back from the 32-bit `id` of a used element. -/
theorem toNat_ofNat32 (i : Fin num) : (UInt32.ofNat i.val).toNat = i.val := by
  have h8 : num = 8 := rfl
  have := i.isLt
  rw [UInt32.toNat_ofNat']
  omega

section Submit

variable {d : Disk Pid} {q : Pid} {w : Bool} {i0 i1 i2 : Fin num}

@[simp] theorem submit_free : (submit d q w i0 i1 i2).free = d.free := rfl

@[simp] theorem submit_used : (submit d q w i0 i1 i2).used = d.used := rfl

@[simp] theorem submit_usedIdx : (submit d q w i0 i1 i2).usedIdx = d.usedIdx := rfl

theorem submit_info : (submit d q w i0 i1 i2).info = Function.update d.info i0 ⟨some q, 0xff⟩ :=
  rfl

theorem submit_desc_of_not_mem {j : Fin num} (hj : j ∉ [i0, i1, i2]) :
    (submit d q w i0 i1 i2).desc j = d.desc j := by
  simp only [List.mem_cons, List.not_mem_nil, or_false, not_or] at hj
  simp [submit, hj.1, hj.2.1, hj.2.2]

/-- `virtio_disk_rw` formats a chain that `free_chain` follows. -/
theorem submit_linked (hnd : [i0, i1, i2].Nodup) : Linked (submit d q w i0 i1 i2).desc [i0, i1, i2] := by
  simp only [List.nodup_cons, List.mem_cons, List.not_mem_nil, or_false, not_or] at hnd
  obtain ⟨⟨h01, h02⟩, h12, -⟩ := hnd
  have hflag : ((if w then 0 else vringDescFWrite) ||| vringDescFNext) &&& vringDescFNext ≠ 0 := by
    cases w <;> decide
  refine ⟨?_, ?_, ?_, ?_, ?_⟩
  · simp [submit, h01, h02, vringDescFNext]
  · simpa [submit, h01, h02] using toNat_ofNat16 i1
  · simpa [submit, h12] using hflag
  · simpa [submit, h12] using toNat_ofNat16 i2
  · simp only [Linked, submit, Function.update_self]
    decide

/-- Submitting appends the head to the avail ring's stretch. -/
theorem availQ_submit {σ : Sys Pid} (h : (σ.disk.avail.idx - σ.seen).toNat < num)
    (l : List (Fin num)) (b : Pid → Bool) (r : Pid → Req) (busy : List UInt16) :
    Sys.availQ ⟨submit (σ.disk.take l) q w i0 i1 i2, b, r, σ.seen, busy⟩ = σ.availQ ++ [i0.val] := by
  simp only [Sys.availQ, submit, Disk.take]
  rw [ringQ_push _ h, List.map_append, List.map_singleton, toNat_ofNat16]

end Submit

namespace Sys

variable {σ σ' : Sys Pid} {p : Pid}

/-- The invariant of every reachable state. -/
structure Inv (σ : Sys Pid) : Prop where
  /-- a descriptor is in use iff it is on a request's chain -/
  used_iff : ∀ i, σ.disk.free i = false ↔ ∃ p, i ∈ (σ.req p).chain
  nodup : ∀ p, (σ.req p).chain.Nodup
  disjoint : ∀ p q, p ≠ q → List.Disjoint (σ.req p).chain (σ.req q).chain
  /-- chains are linked as `virtio_disk_rw` formatted them -/
  linked : ∀ p i0 i1 i2, σ.req p = .waiting i0 i1 i2 → Linked σ.disk.desc [i0, i1, i2]
  /-- `info[idx[0]].b` names the request's buffer -/
  owner : ∀ p i0 i1 i2, σ.req p = .waiting i0 i1 i2 → (σ.disk.info i0).b = some p
  /-- the heads between the counters and in the device, each once -/
  queued_nodup : σ.queued.Nodup
  mem_queued : ∀ n, n ∈ σ.queued ↔
    ∃ p i0 i1 i2, σ.req p = .waiting i0 i1 i2 ∧ σ.bdisk p = true ∧ n = i0.val
  /-- the device wrote status `0` for every head it put in the used ring -/
  status : ∀ i : Fin num, i.val ∈ σ.usedQ → (σ.disk.info i).status = 0

theorem Inv.init : Inv (Sys.init : Sys Pid) where
  used_iff i := by simp [Sys.init, Req.chain]
  nodup _ := by simp [Sys.init, Req.chain]
  disjoint _ _ _ := by simp [Sys.init, Req.chain]
  linked _ _ _ _ h := by cases h
  owner _ _ _ _ h := by cases h
  queued_nodup := by simp [Sys.init, queued, availQ, usedQ]
  mem_queued _ := by simp [Sys.init, queued, availQ, usedQ]
  status _ := by simp [Sys.init, usedQ]

theorem Inv.waiting_used (hI : Inv σ) {i0 i1 i2 : Fin num} (h : σ.req p = .waiting i0 i1 i2) :
    ∀ i ∈ [i0, i1, i2], σ.disk.free i = false := by
  intro i hi
  rw [hI.used_iff]
  exact ⟨p, by rw [h]; exact hi⟩

/-- A queued number is a descriptor in use. -/
theorem Inv.queued_used (hI : Inv σ) {n : Nat} (hn : n ∈ σ.queued) :
    ∃ i : Fin num, i.val = n ∧ σ.disk.free i = false := by
  obtain ⟨q, i0, i1, i2, hq, -, rfl⟩ := (hI.mem_queued n).mp hn
  exact ⟨i0, rfl, hI.waiting_used hq i0 List.mem_cons_self⟩

theorem Inv.free_not_queued (hI : Inv σ) {i : Fin num} (hf : σ.disk.free i = true) :
    i.val ∉ σ.queued := by
  intro hn
  obtain ⟨j, hj, hjf⟩ := hI.queued_used hn
  rw [Fin.ext hj, hf] at hjf
  cases hjf

/-- Two requests with the same head are the same request. -/
theorem Inv.eq_of_head (hI : Inv σ) {q q' : Pid} {i0 i1 i2 j1 j2 : Fin num}
    (hq : σ.req q = .waiting i0 i1 i2) (hq' : σ.req q' = .waiting i0 j1 j2) : q = q' := by
  by_contra hne
  have hd := hI.disjoint q q' hne
  rw [hq, hq'] at hd
  exact hd (List.mem_cons_self) (List.mem_cons_self)

/-- Distinct queued heads hold disjoint chains of three descriptors each, and
there are eight descriptors, so at most two heads are queued. -/
theorem Inv.length_queued (hI : Inv σ) : σ.queued.length ≤ 2 := by
  have hq : ∀ n ∈ σ.queued, ∃ q i0 i1 i2, σ.req q = .waiting i0 i1 i2 ∧ n = i0.val := by
    intro n hn
    obtain ⟨q, i0, i1, i2, hq, -, rfl⟩ := (hI.mem_queued n).mp hn
    exact ⟨q, i0, i1, i2, hq, rfl⟩
  choose f i0 i1 i2 hf hhead using hq
  let c : {n // n ∈ σ.queued} → List (Fin num) := fun n => (σ.req (f n.1 n.2)).chain
  have hc : ∀ n, c n = [i0 n.1 n.2, i1 n.1 n.2, i2 n.1 n.2] := fun n => by
    simp only [c, hf, Req.chain]
  have hnd : (σ.queued.attach.flatMap c).Nodup := by
    rw [List.nodup_flatMap]
    refine ⟨fun n _ => hI.nodup _, ?_⟩
    refine (List.nodup_attach.mpr hI.queued_nodup).imp ?_
    intro a b hab
    -- distinct heads belong to distinct requests
    have hfab : f a.1 a.2 ≠ f b.1 b.2 := by
      intro he
      have hreq := hf b.1 b.2
      rw [← he, hf a.1 a.2] at hreq
      injection hreq with h0
      exact hab (Subtype.ext (by rw [hhead a.1 a.2, hhead b.1 b.2, h0]))
    exact hI.disjoint _ _ hfab
  have hlen : (σ.queued.attach.flatMap c).length = 3 * σ.queued.length := by
    simp [List.length_flatMap, hc, Nat.mul_comm]
  have hcard := hnd.length_le_card
  rw [hlen, Fintype.card_fin] at hcard
  have h8 : num = 8 := rfl
  omega

theorem Inv.length_availQ (hI : Inv σ) : (σ.disk.avail.idx - σ.seen).toNat < num := by
  have h := hI.length_queued
  have h8 : num = 8 := rfl
  simp only [queued, availQ, List.length_append, List.length_map, length_ringQ] at h
  omega

theorem Inv.length_usedQ (hI : Inv σ) : (σ.disk.used.idx - σ.disk.usedIdx).toNat < num := by
  have h := hI.length_queued
  have h8 : num = 8 := rfl
  simp only [queued, usedQ, List.length_append, List.length_map, length_ringQ] at h
  omega

/-- `free_chain` from the head of a request frees exactly its chain, on any
disk with the same descriptors and `free[]`. -/
theorem Inv.freeChain_eq (hI : Inv σ) {i0 i1 i2 : Fin num} (hp : σ.req p = .waiting i0 i1 i2)
    {d : Disk Pid} (hdesc : d.desc = σ.disk.desc) (hfree : d.free = σ.disk.free) :
    freeChain d i0.val = .ok (d.release [i0, i1, i2]) := by
  have hnd := hI.nodup p
  rw [hp] at hnd
  refine freeChainLoop_linked [i1, i2] i0 (num + 1) d ?_ hnd ?_ (show 2 < num + 1 by decide)
  · rw [hdesc]
    exact hI.linked p i0 i1 i2 hp
  · rw [hfree]
    exact hI.waiting_used hp

end Sys

/-- Moving one element from the front to the middle of three lists. -/
theorem perm_shift {α : Type} (A B U : List α) (x : α) :
    (A ++ (B ++ [x]) ++ U).Perm ((x :: A) ++ B ++ U) := by
  simpa only [List.append_assoc, List.singleton_append, List.cons_append, List.nil_append] using
    (List.perm_middle : (A ++ B ++ x :: U).Perm (x :: (A ++ B ++ U)))

/-! ## Every step keeps the invariant -/

namespace Sys

variable [DecidableEq Pid] {σ : Sys Pid} {p : Pid}

/-- A failed allocation: `p` held no chain, and only free descriptors were
zeroed. -/
theorem Inv.allocFail (hI : Inv σ) (hp : (σ.req p).chain = []) {w : Bool} {l : List (Fin num)}
    (hl : ∀ i ∈ l, σ.disk.free i = true) :
    Inv { σ with
      disk := { σ.disk with desc := fun i => if i ∈ l then ⟨0, 0⟩ else σ.disk.desc i }
      req := Function.update σ.req p (.allocating w) } := by
  have hchain : ∀ q, (Function.update σ.req p (.allocating w) q).chain = (σ.req q).chain := by
    intro q
    by_cases hq : q = p
    · subst hq
      rw [Function.update_self, hp]
      rfl
    · rw [Function.update_of_ne hq]
  have hwait : ∀ q i0 i1 i2, Function.update σ.req p (.allocating w) q = .waiting i0 i1 i2 →
      σ.req q = .waiting i0 i1 i2 := by
    intro q i0 i1 i2 hq
    by_cases hqp : q = p
    · subst hqp
      rw [Function.update_self] at hq
      cases hq
    · rwa [Function.update_of_ne hqp] at hq
  refine ⟨?_, ?_, ?_, ?_, ?_, hI.queued_nodup, ?_, hI.status⟩
  all_goals dsimp only
  · intro i
    simp only [hchain]
    exact hI.used_iff i
  · intro q
    simp only [hchain]
    exact hI.nodup q
  · intro q r hqr
    simp only [hchain]
    exact hI.disjoint q r hqr
  · intro q i0 i1 i2 hq
    have hq' := hwait q i0 i1 i2 hq
    refine Linked.congr (hI.linked q i0 i1 i2 hq') fun j hj => ?_
    -- the chain is in use, and only free descriptors were zeroed
    have hused := hI.waiting_used hq' j hj
    have hjl : j ∉ l := fun h => by rw [hl j h] at hused; cases hused
    simp [hjl]
  · intro q i0 i1 i2 hq
    exact hI.owner q i0 i1 i2 (hwait q i0 i1 i2 hq)
  · intro n
    change n ∈ σ.queued ↔ _
    rw [hI.mem_queued n]
    constructor
    · rintro ⟨q, i0, i1, i2, hq, hb, rfl⟩
      have hqp : q ≠ p := by
        rintro rfl
        rw [hq] at hp
        cases hp
      exact ⟨q, i0, i1, i2, by rwa [Function.update_of_ne hqp], hb, rfl⟩
    · rintro ⟨q, i0, i1, i2, hq, hb, rfl⟩
      exact ⟨q, i0, i1, i2, hwait q i0 i1 i2 hq, hb, rfl⟩

/-- A submitted request: `p` held no chain, and takes three distinct free
descriptors. -/
theorem Inv.submitted (hI : Inv σ) (hp : (σ.req p).chain = []) {w : Bool} {i0 i1 i2 : Fin num}
    (hnd : [i0, i1, i2].Nodup) (hf : ∀ i ∈ [i0, i1, i2], σ.disk.free i = true) :
    Inv { σ with
      disk := submit (σ.disk.take [i0, i1, i2]) p w i0 i1 i2
      bdisk := Function.update σ.bdisk p true
      req := Function.update σ.req p (.waiting i0 i1 i2) } := by
  -- the descriptors on other chains are in use, so none of the new three
  have hout : ∀ q, ∀ j ∈ (σ.req q).chain, j ∉ [i0, i1, i2] := by
    intro q j hj hjl
    have hfree := hf j hjl
    rw [(hI.used_iff j).mpr ⟨q, hj⟩] at hfree
    cases hfree
  have hqp : ∀ q j0 j1 j2, σ.req q = .waiting j0 j1 j2 → q ≠ p := by
    rintro q _ _ _ hq rfl
    rw [hq] at hp
    cases hp
  have hperm : (Sys.queued { σ with
      disk := submit (σ.disk.take [i0, i1, i2]) p w i0 i1 i2
      bdisk := Function.update σ.bdisk p true
      req := Function.update σ.req p (.waiting i0 i1 i2) }).Perm (i0.val :: σ.queued) := by
    rw [queued, availQ_submit hI.length_availQ]
    change (σ.availQ ++ [i0.val] ++ σ.busy.map UInt16.toNat ++ σ.usedQ).Perm _
    rw [List.append_assoc, List.append_assoc, List.singleton_append, queued, List.append_assoc]
    exact List.perm_middle
  have hi0 : i0.val ∉ σ.queued := hI.free_not_queued (hf i0 List.mem_cons_self)
  refine ⟨?_, ?_, ?_, ?_, ?_, ?_, ?_, ?_⟩
  · intro i
    dsimp only
    simp only [submit_free, Disk.take]
    by_cases hi : i ∈ [i0, i1, i2]
    · simp only [hi, if_true, true_iff]
      exact ⟨p, by rw [Function.update_self]; exact hi⟩
    · simp only [hi, if_false]
      rw [hI.used_iff]
      constructor
      · rintro ⟨q, hq⟩
        have hne : q ≠ p := by
          rintro rfl
          rw [hp] at hq
          cases hq
        exact ⟨q, by rwa [Function.update_of_ne hne]⟩
      · rintro ⟨q, hq⟩
        by_cases hne : q = p
        · subst hne
          rw [Function.update_self] at hq
          exact absurd hq hi
        · exact ⟨q, by rwa [Function.update_of_ne hne] at hq⟩
  · intro q
    dsimp only
    by_cases hne : q = p
    · subst hne
      rw [Function.update_self]
      exact hnd
    · rw [Function.update_of_ne hne]
      exact hI.nodup q
  · intro q r hqr
    dsimp only
    by_cases hq : q = p
    · subst hq
      rw [Function.update_self, Function.update_of_ne (Ne.symm hqr)]
      exact fun j hj hj' => hout r j hj' hj
    · by_cases hr : r = p
      · subst hr
        rw [Function.update_self, Function.update_of_ne hq]
        exact fun j hj hj' => hout q j hj hj'
      · rw [Function.update_of_ne hq, Function.update_of_ne hr]
        exact hI.disjoint q r hqr
  · intro q j0 j1 j2 hq
    dsimp only at hq ⊢
    by_cases hne : q = p
    · subst hne
      rw [Function.update_self] at hq
      cases hq
      exact submit_linked hnd
    · rw [Function.update_of_ne hne] at hq
      refine Linked.congr (hI.linked q j0 j1 j2 hq) fun j hj => ?_
      exact submit_desc_of_not_mem (hout q j (by rw [hq]; exact hj))
  · intro q j0 j1 j2 hq
    dsimp only at hq ⊢
    by_cases hne : q = p
    · subst hne
      rw [Function.update_self] at hq
      cases hq
      simp [submit_info]
    · rw [Function.update_of_ne hne] at hq
      have hj0 : j0 ≠ i0 := fun e =>
        hout q j0 (by rw [hq]; exact List.mem_cons_self) (by rw [e]; exact List.mem_cons_self)
      simp [submit_info, Disk.take, hj0, hI.owner q j0 j1 j2 hq]
  · exact hperm.nodup_iff.mpr (List.nodup_cons.mpr ⟨hi0, hI.queued_nodup⟩)
  · intro n
    dsimp only
    rw [hperm.mem_iff, List.mem_cons, hI.mem_queued n]
    constructor
    · rintro (rfl | ⟨q, j0, j1, j2, hq, hb, rfl⟩)
      · exact ⟨p, i0, i1, i2, Function.update_self .., Function.update_self .., rfl⟩
      · have hne := hqp q j0 j1 j2 hq
        exact ⟨q, j0, j1, j2, by rwa [Function.update_of_ne hne],
          by rwa [Function.update_of_ne hne], rfl⟩
    · rintro ⟨q, j0, j1, j2, hq, hb, rfl⟩
      by_cases hne : q = p
      · subst hne
        rw [Function.update_self] at hq
        cases hq
        exact .inl rfl
      · rw [Function.update_of_ne hne] at hq hb
        exact .inr ⟨q, j0, j1, j2, hq, hb, rfl⟩
  · intro i hi
    -- the used ring is untouched, and its heads are in use while `i0` was free
    have hi' : i.val ∈ σ.usedQ := hi
    dsimp only
    have hne : i ≠ i0 := by
      rintro rfl
      exact hi0 (List.mem_append_right _ hi')
    simp [submit_info, Disk.take, hne, hI.status i hi']

/-- A finished request: `p`'s buffer is back and its chain is freed. -/
theorem Inv.released (hI : Inv σ) {i0 i1 i2 : Fin num} (hp : σ.req p = .waiting i0 i1 i2)
    (hb : σ.bdisk p = false) :
    Inv { σ with
      disk := Disk.release
        { σ.disk with info := Function.update σ.disk.info i0 { σ.disk.info i0 with b := none } }
        [i0, i1, i2]
      req := Function.update σ.req p .idle } := by
  have hchain : (σ.req p).chain = [i0, i1, i2] := by rw [hp]; rfl
  -- the other chains are disjoint from `p`'s
  have hout : ∀ q, q ≠ p → ∀ j ∈ (σ.req q).chain, j ∉ [i0, i1, i2] := by
    intro q hq j hj hjl
    exact hI.disjoint q p hq hj (by rw [hchain]; exact hjl)
  have hwait : ∀ q j0 j1 j2, Function.update σ.req p .idle q = .waiting j0 j1 j2 →
      q ≠ p ∧ σ.req q = .waiting j0 j1 j2 := by
    intro q j0 j1 j2 hq
    by_cases hne : q = p
    · subst hne
      rw [Function.update_self] at hq
      cases hq
    · rw [Function.update_of_ne hne] at hq
      exact ⟨hne, hq⟩
  refine ⟨?_, ?_, ?_, ?_, ?_, hI.queued_nodup, ?_, ?_⟩
  all_goals dsimp only
  · intro i
    simp only [Disk.release]
    by_cases hi : i ∈ [i0, i1, i2]
    · simp only [hi, if_true, Bool.true_eq_false, false_iff, not_exists]
      intro q hq
      by_cases hne : q = p
      · subst hne
        rw [Function.update_self] at hq
        cases hq
      · rw [Function.update_of_ne hne] at hq
        exact hout q hne i hq hi
    · simp only [hi, if_false]
      rw [hI.used_iff]
      constructor
      · rintro ⟨q, hq⟩
        have hne : q ≠ p := by
          rintro rfl
          rw [hchain] at hq
          exact hi hq
        exact ⟨q, by rwa [Function.update_of_ne hne]⟩
      · rintro ⟨q, hq⟩
        by_cases hne : q = p
        · subst hne
          rw [Function.update_self] at hq
          cases hq
        · exact ⟨q, by rwa [Function.update_of_ne hne] at hq⟩
  · intro q
    by_cases hne : q = p
    · subst hne
      rw [Function.update_self]
      exact List.nodup_nil
    · rw [Function.update_of_ne hne]
      exact hI.nodup q
  · intro q r hqr
    by_cases hq : q = p
    · subst hq
      rw [Function.update_self]
      exact List.disjoint_nil_left _
    · by_cases hr : r = p
      · subst hr
        rw [Function.update_self]
        exact List.disjoint_nil_right _
      · rw [Function.update_of_ne hq, Function.update_of_ne hr]
        exact hI.disjoint q r hqr
  · intro q j0 j1 j2 hq
    obtain ⟨hne, hq⟩ := hwait q j0 j1 j2 hq
    refine Linked.congr (hI.linked q j0 j1 j2 hq) fun j hj => ?_
    have hj' : j ∉ [i0, i1, i2] := hout q hne j (by rw [hq]; exact hj)
    simp only [Disk.release, hj', if_false]
  · intro q j0 j1 j2 hq
    obtain ⟨hne, hq⟩ := hwait q j0 j1 j2 hq
    have hj0 : j0 ≠ i0 := fun e =>
      hout q hne j0 (by rw [hq]; exact List.mem_cons_self) (by rw [e]; exact List.mem_cons_self)
    simp [Disk.release, hj0, hI.owner q j0 j1 j2 hq]
  · intro n
    change n ∈ σ.queued ↔ _
    rw [hI.mem_queued n]
    constructor
    · rintro ⟨q, j0, j1, j2, hq, hbq, rfl⟩
      -- `p`'s buffer is back, so `p` is not the request queued here
      have hne : q ≠ p := by
        rintro rfl
        rw [hb] at hbq
        cases hbq
      exact ⟨q, j0, j1, j2, by rwa [Function.update_of_ne hne], hbq, rfl⟩
    · rintro ⟨q, j0, j1, j2, hq, hbq, rfl⟩
      exact ⟨q, j0, j1, j2, (hwait q j0 j1 j2 hq).2, hbq, rfl⟩
  · intro i hi
    have hst := hI.status i hi
    by_cases hne : i = i0
    · subst hne
      simpa [Disk.release] using hst
    · simpa [Disk.release, hne] using hst

/-- A pass of `virtio_disk_intr`: the head at `used_idx` is a request's, whose
buffer goes back. -/
theorem Inv.intrPassed (hI : Inv σ) (hne : σ.disk.usedIdx ≠ σ.disk.used.idx) {i : Fin num}
    {q : Pid} (hid : (σ.disk.used.ring (Fin.ofNat num σ.disk.usedIdx.toNat)).toNat = i.val)
    (hb : (σ.disk.info i).b = some q) :
    Inv { σ with
      bdisk := Function.update σ.bdisk q false
      disk := { σ.disk with usedIdx := σ.disk.usedIdx + 1 } } := by
  -- the used stretch loses its first head, `i`
  have hU : σ.usedQ = i.val :: Sys.usedQ { σ with
      bdisk := Function.update σ.bdisk q false
      disk := { σ.disk with usedIdx := σ.disk.usedIdx + 1 } } := by
    simp only [usedQ]
    rw [ringQ_pop _ hne, List.map_cons, hid]
  have hperm : σ.queued.Perm (i.val :: Sys.queued { σ with
      bdisk := Function.update σ.bdisk q false
      disk := { σ.disk with usedIdx := σ.disk.usedIdx + 1 } }) := by
    rw [queued, hU, queued]
    exact List.perm_middle
  have hcons := hperm.nodup_iff.mp hI.queued_nodup
  rw [List.nodup_cons] at hcons
  -- `i` is the head of `q`'s request
  obtain ⟨q', j0, j1, j2, hq', -, hj⟩ :=
    (hI.mem_queued i.val).mp (hperm.mem_iff.mpr List.mem_cons_self)
  obtain rfl : j0 = i := Fin.ext hj.symm
  obtain rfl : q' = q := Option.some.inj ((hI.owner q' j0 j1 j2 hq').symm.trans hb)
  refine ⟨hI.used_iff, hI.nodup, hI.disjoint, hI.linked, hI.owner, hcons.2, ?_, ?_⟩
  · intro n
    constructor
    · intro hn
      obtain ⟨r, k0, k1, k2, hr, hbr, rfl⟩ :=
        (hI.mem_queued n).mp (hperm.mem_iff.mpr (List.mem_cons_of_mem _ hn))
      have hrq : r ≠ q' := by
        rintro rfl
        rw [hq'] at hr
        cases hr
        exact hcons.1 hn
      exact ⟨r, k0, k1, k2, hr, by dsimp only; rwa [Function.update_of_ne hrq], rfl⟩
    · rintro ⟨r, k0, k1, k2, hr, hbr, rfl⟩
      dsimp only at hbr
      have hrq : r ≠ q' := by
        rintro rfl
        simp at hbr
      rw [Function.update_of_ne hrq] at hbr
      have hn : k0.val ∈ σ.queued := (hI.mem_queued _).mpr ⟨r, k0, k1, k2, hr, hbr, rfl⟩
      rcases List.mem_cons.mp (hperm.mem_iff.mp hn) with h | h
      · -- the same head would make `r` the request of `q'`
        obtain rfl : k0 = j0 := Fin.ext h
        exact absurd (hI.eq_of_head hr hq') hrq
      · exact h
  · intro k hk
    exact hI.status k (by rw [hU]; exact List.mem_cons_of_mem _ hk)

omit [DecidableEq Pid] in
/-- The device takes the next head from the avail ring. -/
theorem Inv.devTaken (hI : Inv σ) (hne : σ.seen ≠ σ.disk.avail.idx) : Inv (devTake σ) := by
  have hA : σ.availQ = (σ.disk.avail.ring (Fin.ofNat num σ.seen.toNat)).toNat :: (devTake σ).availQ := by
    simp only [availQ, devTake]
    rw [ringQ_pop _ hne, List.map_cons]
  have hperm : (devTake σ).queued.Perm σ.queued := by
    rw [queued, queued, hA]
    simp only [devTake, List.map_append, List.map_singleton]
    exact perm_shift _ _ _ _
  exact ⟨hI.used_iff, hI.nodup, hI.disjoint, hI.linked, hI.owner,
    hperm.nodup_iff.mpr hI.queued_nodup, fun n => hperm.mem_iff.trans (hI.mem_queued n), hI.status⟩

omit [DecidableEq Pid] in
/-- The device completes a chain it has taken, in any order. -/
theorem Inv.devCompleted (hI : Inv σ) {h : UInt16} (hh : h.toNat < num) (hb : h ∈ σ.busy) :
    Inv (devComplete σ ⟨h.toNat, hh⟩) := by
  have hU : (devComplete σ ⟨h.toNat, hh⟩).usedQ = σ.usedQ ++ [h.toNat] := by
    simp only [usedQ, devComplete]
    rw [ringQ_push _ hI.length_usedQ, List.map_append, List.map_singleton]
    have := toNat_ofNat32 ⟨h.toNat, hh⟩
    simp only at this
    rw [this]
  have hB : (devComplete σ ⟨h.toNat, hh⟩).busy = σ.busy.erase h := by
    simp [devComplete, UInt16.ofNat_toNat]
  have hperm : (devComplete σ ⟨h.toNat, hh⟩).queued.Perm σ.queued := by
    have hBp : (σ.busy.map UInt16.toNat).Perm (h.toNat :: (σ.busy.erase h).map UInt16.toNat) :=
      (List.perm_cons_erase hb).map _
    -- the head moves from the device to the end of the used stretch
    have hmove : ((σ.busy.erase h).map UInt16.toNat ++ (σ.usedQ ++ [h.toNat])).Perm
        (σ.busy.map UInt16.toNat ++ σ.usedQ) :=
      ((List.Perm.append_left _ (List.perm_append_singleton _ _)).trans List.perm_middle).trans
        (List.Perm.append_right _ hBp.symm)
    rw [queued, queued, hU, hB]
    simp only [List.append_assoc]
    exact hmove.append_left _
  refine ⟨hI.used_iff, hI.nodup, hI.disjoint, hI.linked, ?_, hperm.nodup_iff.mpr hI.queued_nodup,
    fun n => hperm.mem_iff.trans (hI.mem_queued n), ?_⟩
  · intro q j0 j1 j2 hq
    -- only the status byte of the head changes
    have hown := hI.owner q j0 j1 j2 hq
    by_cases hj : j0 = ⟨h.toNat, hh⟩
    · subst hj
      simpa [devComplete] using hown
    · simpa [devComplete, hj] using hown
  · intro k hk
    rw [hU, List.mem_append, List.mem_singleton] at hk
    by_cases hj : k = ⟨h.toNat, hh⟩
    · subst hj
      simp [devComplete]
    · have hst := hI.status k (hk.resolve_right fun e => hj (Fin.ext e))
      simpa [devComplete, hj] using hst

/-- Every step keeps the invariant. -/
theorem Inv.step (hI : Inv σ) {e : Ev Pid} {σ' : Sys Pid} (h : σ.step e = some (.ok σ')) :
    Inv σ' := by
  cases e with
  | rw p w =>
    obtain ⟨hp, hr⟩ := step_rw h
    have hc : (σ.req p).chain = [] := by rw [hp]; rfl
    rcases rwAlloc_spec hr with ⟨l, hl, rfl⟩ | ⟨i0, i1, i2, hnd, hf, rfl⟩
    · exact hI.allocFail hc hl
    · exact hI.submitted hc hnd hf
  | retry p =>
    obtain ⟨w, hp, hr⟩ := step_retry h
    have hc : (σ.req p).chain = [] := by rw [hp]; rfl
    rcases rwAlloc_spec hr with ⟨l, hl, rfl⟩ | ⟨i0, i1, i2, hnd, hf, rfl⟩
    · exact hI.allocFail hc hl
    · exact hI.submitted hc hnd hf
  | wake p =>
    obtain ⟨i0, i1, i2, hp, hw⟩ := step_wake h
    rcases rwWake_spec hw with ⟨-, rfl⟩ | ⟨hb, d, hd, rfl⟩
    · exact hI
    · have hfc := hI.freeChain_eq hp
        (d := { σ.disk with info := Function.update σ.disk.info i0 { σ.disk.info i0 with b := none } })
        rfl rfl
      rw [hfc] at hd
      cases hd
      exact hI.released hp hb
  | intr =>
    obtain ⟨hne, hpass⟩ := step_intr h
    obtain ⟨i, q, hid, -, hb, rfl⟩ := intrPass_spec hpass
    exact hI.intrPassed hne hid hb
  | devTake =>
    obtain ⟨hne, rfl⟩ := step_devTake h
    exact hI.devTaken hne
  | devComplete h =>
    obtain ⟨hh, hb, rfl⟩ := step_devComplete h
    exact hI.devCompleted hh hb

end Sys

/-- The invariant holds in every reachable state. -/
theorem inv_reachable [DecidableEq Pid] : (virtioSys Pid).Invariant Sys.Inv :=
  TSys.Invariant.of_inductive (fun _ h => h ▸ Sys.Inv.init) (fun _ _ _ hI h => hI.step h)

/-! ## No step panics -/

namespace Sys

variable [DecidableEq Pid] {σ : Sys Pid} {p : Pid}

/-- `virtio_disk_rw` up to its first `sleep` never panics: `alloc3_desc`'s
`free_desc` calls only give back what it took. -/
theorem rwAlloc_ne_error (σ : Sys Pid) (p : Pid) (w : Bool) (msg : String) :
    rwAlloc σ p w ≠ .error msg := by
  unfold rwAlloc
  rcases alloc3Desc_spec σ.disk with ⟨i0, i1, i2, -, -, ha⟩ | ⟨l, -, ha⟩
  · simp only [ha, bind, Except.bind]
    exact fun h => nomatch h
  · simp only [ha, bind, Except.bind]
    exact fun h => nomatch h

/-- `virtio_disk_rw` after `sleep(b, …)` never panics: `free_chain` follows a
chain of descriptors in use. -/
theorem Inv.rwWake_ne_error (hI : Inv σ) {i0 i1 i2 : Fin num} (hp : σ.req p = .waiting i0 i1 i2)
    (msg : String) : rwWake σ p i0 ≠ .error msg := by
  unfold rwWake
  split_ifs with hb
  · exact fun h => nomatch h
  · have hfc := hI.freeChain_eq hp
      (d := { σ.disk with info := Function.update σ.disk.info i0 { σ.disk.info i0 with b := none } })
      rfl rfl
    simp only [bind, Except.bind, hfc]
    exact fun h => nomatch h

/-- A pass of `virtio_disk_intr` never panics: the entry at `used_idx` is the
head of a request, with status `0` and its buffer in `info`. -/
theorem Inv.intrPass_ne_error (hI : Inv σ) (hne : σ.disk.usedIdx ≠ σ.disk.used.idx)
    (msg : String) : intrPass σ ≠ .error msg := by
  have hmem : (σ.disk.used.ring (Fin.ofNat num σ.disk.usedIdx.toNat)).toNat ∈ σ.usedQ := by
    simp only [usedQ]
    rw [ringQ_pop _ hne, List.map_cons]
    exact List.mem_cons_self
  obtain ⟨q, i0, i1, i2, hq, -, hid⟩ := (hI.mem_queued _).mp (List.mem_append_right _ hmem)
  have hst := hI.status i0 (hid ▸ hmem)
  have hown := hI.owner q i0 i1 i2 hq
  simp only [intrPass, hid, i0.isLt, dite_true, Fin.eta, hst, hown, ne_eq, not_true_eq_false,
    if_false]
  exact fun h => nomatch h

/-- No step of a state that satisfies the invariant panics. -/
theorem Inv.step_ne_error (hI : Inv σ) (e : Ev Pid) (msg : String) :
    σ.step e ≠ some (.error msg) := by
  cases e with
  | rw p w =>
    simp only [Sys.step]
    split_ifs
    · exact fun h => rwAlloc_ne_error σ p w msg (Option.some.inj h)
    · exact fun h => nomatch h
  | retry p =>
    simp only [Sys.step]
    split
    · exact fun h => rwAlloc_ne_error _ _ _ msg (Option.some.inj h)
    · exact fun h => nomatch h
  | wake p =>
    simp only [Sys.step]
    split
    · rename_i i0 i1 i2 hp
      exact fun h => hI.rwWake_ne_error hp msg (Option.some.inj h)
    · exact fun h => nomatch h
  | intr =>
    simp only [Sys.step]
    split_ifs with hne
    · exact fun h => nomatch h
    · exact fun h => hI.intrPass_ne_error hne msg (Option.some.inj h)
  | devTake =>
    simp only [Sys.step]
    split_ifs <;> exact fun h => nomatch h
  | devComplete h =>
    simp only [Sys.step]
    split_ifs <;> exact fun h => nomatch h

end Sys

/-! ## Whole calls of `virtio_disk_intr` -/

section Intr

variable [DecidableEq Pid]

/-- A whole `virtio_disk_intr` call that returns is a run of passes. -/
theorem intrLoop_run (fuel : Nat) :
    ∀ σ σ' : Sys Pid, intrLoop fuel σ = .ok σ' →
      ∃ k, (virtioSys Pid).Run σ (List.replicate k .intr) σ' := by
  induction fuel with
  | zero =>
    intro σ σ' h
    cases h
  | succ fuel ih =>
    intro σ σ' h
    simp only [intrLoop] at h
    split_ifs at h with heq
    · cases h
      exact ⟨0, TSys.Run.nil σ⟩
    · obtain ⟨σ₁, h₁, h₂⟩ := bind_eq_ok h
      obtain ⟨k, hk⟩ := ih σ₁ σ' h₂
      refine ⟨k + 1, TSys.Run.cons ?_ hk⟩
      show σ.step .intr = some (.ok σ₁)
      simp only [Sys.step, heq, if_false, h₁]

theorem virtioDiskIntr_run {σ σ' : Sys Pid} (h : virtioDiskIntr σ = .ok σ') :
    ∃ k, (virtioSys Pid).Run σ (List.replicate k .intr) σ' :=
  intrLoop_run _ σ σ' h

theorem intrPass_ne_fuel {σ : Sys Pid} {e : String} (h : intrPass σ = .error e) :
    e ≠ "virtio_disk_intr: out of fuel" := by
  unfold intrPass at h
  dsimp only at h
  split_ifs at h
  · cases h
    decide
  · split at h
    · cases h
    · cases h
      decide
  · cases h
    decide

/-- Each pass moves `used_idx` one closer to `used->idx`, so `k + 1` passes are
enough when the two counters are `k` apart. -/
theorem intrLoop_ne_fuel (fuel : Nat) :
    ∀ σ : Sys Pid, (σ.disk.used.idx - σ.disk.usedIdx).toNat < fuel →
      intrLoop fuel σ ≠ .error "virtio_disk_intr: out of fuel" := by
  induction fuel with
  | zero =>
    intro σ h
    exact absurd h (Nat.not_lt_zero _)
  | succ fuel ih =>
    intro σ h
    simp only [intrLoop]
    split_ifs with heq
    · exact fun h => nomatch h
    · cases hp : intrPass σ with
      | error e => exact fun h => intrPass_ne_fuel hp (Except.error.inj h)
      | ok σ₁ =>
        obtain ⟨i, q, -, -, -, rfl⟩ := Sys.intrPass_spec hp
        have hd := toNat_sub_succ heq
        exact ih _ (by simp only at hd ⊢; omega)

/-- `virtio_disk_intr` never runs out of passes. -/
theorem virtioDiskIntr_ne_fuel (σ : Sys Pid) :
    virtioDiskIntr σ ≠ .error "virtio_disk_intr: out of fuel" :=
  intrLoop_ne_fuel _ σ (UInt16.toNat_lt _)

end Intr

/-! ## Descriptor bookkeeping over every run -/

/-- For every interleaving of the critical sections of `virtio_disk_rw`, the
passes of `virtio_disk_intr` and a device that completes chains in any order:
`alloc3_desc` takes three distinct free descriptors or leaves `free[]` as it
was; a descriptor is in use iff it is on the chain of exactly one request;
`free_chain` from a request's head frees exactly its three descriptors, all in
use, so no step panics; and the heads in the avail ring past the device, in
the device and in the used ring past `used_idx` are, once each, those of the
requests whose buffer the disk owns, never more than two, across every wrap of
the 16-bit counters. -/
theorem virtio_descriptor_bookkeeping [DecidableEq Pid] :
    (∀ d : Disk Pid,
      (∃ i0 i1 i2, [i0, i1, i2].Nodup ∧ (∀ i ∈ [i0, i1, i2], d.free i = true) ∧
        alloc3Desc d = .ok (some (i0, i1, i2), d.take [i0, i1, i2])) ∨
      ∃ d', alloc3Desc d = .ok (none, d') ∧ d'.free = d.free) ∧
    ∀ σ, (virtioSys Pid).Reachable σ →
      (∀ i, σ.disk.free i = false ↔ ∃! p, i ∈ (σ.req p).chain) ∧
      (∀ p i0 i1 i2, σ.req p = .waiting i0 i1 i2 →
        (∀ i ∈ [i0, i1, i2], σ.disk.free i = false) ∧
        freeChain σ.disk i0.val = .ok (σ.disk.release [i0, i1, i2])) ∧
      (∀ e msg, σ.step e ≠ some (.error msg)) ∧
      σ.queued.Nodup ∧
      (∀ n, n ∈ σ.queued ↔
        ∃ p i0 i1 i2, σ.req p = .waiting i0 i1 i2 ∧ σ.bdisk p = true ∧ n = i0.val) ∧
      σ.queued.length ≤ 2 := by
  refine ⟨fun d => ?_, fun σ hσ => ?_⟩
  · rcases alloc3Desc_spec d with hok | ⟨l, -, ha⟩
    · exact .inl hok
    · exact .inr ⟨_, ha, rfl⟩
  · have hI := inv_reachable σ hσ
    refine ⟨fun i => ?_, fun p i0 i1 i2 hp => ⟨hI.waiting_used hp, hI.freeChain_eq hp rfl rfl⟩,
      hI.step_ne_error, hI.queued_nodup, hI.mem_queued, hI.length_queued⟩
    rw [hI.used_iff]
    constructor
    · rintro ⟨p, hp⟩
      -- chains are disjoint, so the request is unique
      refine ⟨p, hp, fun q hq => ?_⟩
      by_contra hne
      exact hI.disjoint q p hne hq hp
    · rintro ⟨p, hp, -⟩
      exact ⟨p, hp⟩

end Xv6.Kernel.Virtio
