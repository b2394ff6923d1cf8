import Mathlib.Data.Fintype.Card
import Mathlib.Data.Fintype.Fin
import Xv6.Lib.DList
import Xv6.Lib.Reach
import Xv6.Kernel.Param

/-!
# The buffer cache (`kernel/bio.c`)

`bcache` holds `NBUF` buffers on a circular doubly linked list through
`bcache.head`. `bget` scans it forwards for the block and, on a miss,
backwards for a buffer with `refcnt == 0`, which it takes over. `brelse`
drops a reference and, when it drops the last one, moves the buffer to the
front; `bpin` and `bunpin` change `refcnt` for the log and move nothing.

Each call runs under `bcache.lock`, so one call is one step. The sleep-locks
and the data are left out: what the cache decides depends only on the links,
`dev`, `blockno` and `refcnt`.

Beside the cache, `Bio` records what the properties are stated over: the
references `bread` handed out and `bpin` took, which buffers `bget` has
assigned, and for each buffer when `brelse` last moved it to the front and
when its `refcnt` last fell to `0`.

* `bioInv_invariant`: in every reachable state the links form one ring that
  holds every buffer once, in order of their last move to the front;
  `refcnt` counts the references held and pinned; no buffer shares an
  assigned buffer's block.
* `bcache_lru`: from it, `bget` returns the buffer caching a block when
  there is one, and otherwise takes, among the buffers with `refcnt == 0`,
  the one `brelse` moved to the front longest ago.
* `bunpin_breaks_lru`: a buffer whose `refcnt` falls to `0` in `bunpin`
  keeps its old place, so that one is taken even though it became free last.
-/

namespace Xv6.Kernel

open Xv6.Lib

/-- `struct buf`, less its sleep-lock, its `disk` flag and its data. -/
structure Buf where
  valid : Bool
  dev : Nat
  blockno : Nat
  refcnt : Nat
  deriving DecidableEq, Repr

/-- `bcache`: the buffers, and the links of its list, `none` standing for
`bcache.head`. -/
structure Bcache where
  buf : Fin nbuf → Buf
  links : Links (Fin nbuf)

namespace Bcache

/-- Replace buffer `b`. -/
def setBuf (c : Bcache) (b : Fin nbuf) (v : Buf) : Bcache :=
  { c with buf := Function.update c.buf b v }

/-- Set `b->refcnt`. -/
def setRefcnt (c : Bcache) (b : Fin nbuf) (n : Nat) : Bcache :=
  c.setBuf b { c.buf b with refcnt := n }

/-- `binit()`: the buffers as the static `bcache` has them, the list empty,
then each buffer in turn put at the front. -/
def binit : Bcache :=
  ⟨fun _ => ⟨false, 0, 0, 0⟩,
    (List.finRange nbuf).foldl Links.pushFront ⟨fun _ => none, fun _ => none⟩⟩

/-- The first loop of `bget`: from `head.next`, the buffer of `(dev, blockno)`. -/
def cached (c : Bcache) (dev blockno : Nat) : Option (Fin nbuf) :=
  c.links.find (fun b => (c.buf b).dev == dev && (c.buf b).blockno == blockno)
    (c.links.next none) nbuf

/-- The second loop: from `head.prev` backwards, the first buffer with
`refcnt == 0`. -/
def victim (c : Bcache) : Option (Fin nbuf) :=
  c.links.swap.find (fun b => (c.buf b).refcnt == 0) (c.links.prev none) nbuf

/-- `bget(dev, blockno)`: the buffer, locked, and the cache after it. -/
def bget (c : Bcache) (dev blockno : Nat) : Except String (Fin nbuf × Bcache) :=
  match c.cached dev blockno with
  | some b => .ok (b, c.setRefcnt b ((c.buf b).refcnt + 1))
  | none =>
    match c.victim with
    | some b => .ok (b, c.setBuf b ⟨false, dev, blockno, 1⟩)
    | none => .error "bget: no buffers"

/-- `bread(dev, blockno)`: a buffer that is not valid is read from the disk. -/
def bread (c : Bcache) (dev blockno : Nat) : Except String (Fin nbuf × Bcache) := do
  let (b, c) ← c.bget dev blockno
  if (c.buf b).valid then pure (b, c) else pure (b, c.setBuf b { c.buf b with valid := true })

/-- `brelse(b)`: the last reference moves `b` to the front of the list. -/
def brelse (c : Bcache) (b : Fin nbuf) : Bcache :=
  let c := c.setRefcnt b ((c.buf b).refcnt - 1)
  if (c.buf b).refcnt = 0 then { c with links := (c.links.unlink b).pushFront b } else c

/-- `bpin(b)`. -/
def bpin (c : Bcache) (b : Fin nbuf) : Bcache := c.setRefcnt b ((c.buf b).refcnt + 1)

/-- `bunpin(b)`. -/
def bunpin (c : Bcache) (b : Fin nbuf) : Bcache := c.setRefcnt b ((c.buf b).refcnt - 1)

end Bcache

/-- The calls on the cache. -/
inductive BioOp where
  | bread (dev blockno : Nat)
  | brelse (b : Fin nbuf)
  | bpin (b : Fin nbuf)
  | bunpin (b : Fin nbuf)

/-- The cache with the bookkeeping its properties are stated over. -/
structure Bio where
  cache : Bcache
  /-- references `bread` handed out and `brelse` has not returned -/
  held : Fin nbuf → Nat
  /-- `bpin`s not undone by `bunpin` -/
  pins : Fin nbuf → Nat
  /-- buffers whose `dev` and `blockno` `bget` has set -/
  assigned : Fin nbuf → Bool
  /-- calls so far, counted from `NBUF` -/
  clock : Nat
  /-- when `brelse` last moved the buffer to the front, or `binit` put it there -/
  movedAt : Fin nbuf → Nat
  /-- when the buffer's `refcnt` last fell to `0` -/
  idleSince : Fin nbuf → Nat

namespace Bio

/-- After `binit`: buffer `b` was put at the front at time `b`. -/
def init : Bio :=
  ⟨Bcache.binit, fun _ => 0, fun _ => 0, fun _ => false, nbuf, fun b => b.val, fun b => b.val⟩

/-- One call. -/
def step (s : Bio) : BioOp → Except String Bio
  | .bread dev blockno => do
    let (b, c) ← s.cache.bread dev blockno
    -- a miss is where `bget` assigns the buffer
    let assigned := match s.cache.cached dev blockno with
      | some _ => s.assigned
      | none => Function.update s.assigned b true
    pure ⟨c, Function.update s.held b (s.held b + 1), s.pins, assigned, s.clock + 1,
      s.movedAt, s.idleSince⟩
  | .brelse b =>
    let c := s.cache.brelse b
    let idle := (c.buf b).refcnt = 0
    pure ⟨c, Function.update s.held b (s.held b - 1), s.pins, s.assigned, s.clock + 1,
      if idle then Function.update s.movedAt b s.clock else s.movedAt,
      if idle then Function.update s.idleSince b s.clock else s.idleSince⟩
  | .bpin b =>
    pure { s with cache := s.cache.bpin b, pins := Function.update s.pins b (s.pins b + 1),
                  clock := s.clock + 1 }
  | .bunpin b =>
    let c := s.cache.bunpin b
    pure ⟨c, s.held, Function.update s.pins b (s.pins b - 1), s.assigned, s.clock + 1,
      s.movedAt, if (c.buf b).refcnt = 0 then Function.update s.idleSince b s.clock
        else s.idleSince⟩

/-- What callers promise: `brelse` only a buffer they hold, `bunpin` only one
they pinned. -/
def Allowed (s : Bio) : BioOp → Prop
  | .brelse b => 0 < s.held b
  | .bunpin b => 0 < s.pins b
  | _ => True

instance (s : Bio) (op : BioOp) : Decidable (s.Allowed op) := by
  cases op <;> unfold Allowed <;> infer_instance

end Bio

/-- The buffer cache under any sequence of calls that keeps the callers' promises. -/
def bioSys : TSys Bio BioOp where
  init s := s = Bio.init
  step s op s' := s.Allowed op ∧ s.step op = .ok s'

/-! ## What the calls do to the cache -/

namespace Bcache

variable {c c' : Bcache} {b : Fin nbuf}

@[simp] theorem setBuf_links (v : Buf) : (c.setBuf b v).links = c.links := rfl

@[simp] theorem setBuf_buf (v : Buf) : (c.setBuf b v).buf = Function.update c.buf b v := rfl

@[simp] theorem setRefcnt_links (n : Nat) : (c.setRefcnt b n).links = c.links := rfl

theorem setRefcnt_buf (n : Nat) :
    (c.setRefcnt b n).buf = Function.update c.buf b { c.buf b with refcnt := n } := rfl

@[simp] theorem setRefcnt_dev (n : Nat) (x : Fin nbuf) :
    ((c.setRefcnt b n).buf x).dev = (c.buf x).dev := by
  by_cases hx : x = b
  · subst hx
    simp [setRefcnt_buf]
  · simp [setRefcnt_buf, hx]

@[simp] theorem setRefcnt_blockno (n : Nat) (x : Fin nbuf) :
    ((c.setRefcnt b n).buf x).blockno = (c.buf x).blockno := by
  by_cases hx : x = b
  · subst hx
    simp [setRefcnt_buf]
  · simp [setRefcnt_buf, hx]

theorem setRefcnt_refcnt (n : Nat) (x : Fin nbuf) :
    ((c.setRefcnt b n).buf x).refcnt = if x = b then n else (c.buf x).refcnt := by
  by_cases hx : x = b
  · subst hx
    simp [setRefcnt_buf]
  · simp [setRefcnt_buf, hx]

/-- Marking a buffer valid keeps every buffer's block. -/
theorem setValid_dev (c : Bcache) (b x : Fin nbuf) (v : Bool) :
    ((c.setBuf b { c.buf b with valid := v }).buf x).dev = (c.buf x).dev := by
  by_cases hx : x = b
  · subst hx
    simp
  · simp [hx]

theorem setValid_blockno (c : Bcache) (b x : Fin nbuf) (v : Bool) :
    ((c.setBuf b { c.buf b with valid := v }).buf x).blockno = (c.buf x).blockno := by
  by_cases hx : x = b
  · subst hx
    simp
  · simp [hx]

/-- `brelse` changes one `refcnt`, and the links only when it drops to `0`. -/
theorem brelse_buf : (c.brelse b).buf = (c.setRefcnt b ((c.buf b).refcnt - 1)).buf := by
  unfold brelse
  dsimp only
  split <;> rfl

theorem brelse_links : (c.brelse b).links =
    if (c.buf b).refcnt - 1 = 0 then (c.links.unlink b).pushFront b else c.links := by
  have hr : ((c.setRefcnt b ((c.buf b).refcnt - 1)).buf b).refcnt = (c.buf b).refcnt - 1 := by
    simp [setRefcnt_refcnt]
  unfold brelse
  dsimp only
  rw [hr]
  split <;> rfl

/-- `bread` is `bget` and then the buffer marked valid: a valid buffer is
marked again, which changes nothing. -/
theorem bread_eq (dev blockno : Nat) :
    c.bread dev blockno = (c.bget dev blockno).map fun r =>
      (r.1, r.2.setBuf r.1 { r.2.buf r.1 with valid := true }) := by
  unfold bread
  cases c.bget dev blockno with
  | error e => rfl
  | ok r =>
    obtain ⟨b, c₁⟩ := r
    by_cases hv : (c₁.buf b).valid = true
    · have hsame : c₁.setBuf b { c₁.buf b with valid := true } = c₁ := by
        unfold setBuf
        rw [← hv, Function.update_eq_self]
      simp only [bind, Except.bind, hv, if_true, pure, Except.pure, Except.map, hsame]
    · simp only [bind, Except.bind, hv, pure, Except.pure, Except.map]
      rfl

/-- `bget` either takes the buffer its first loop found or recycles the one
its second loop found. -/
theorem bget_cases {dev blockno : Nat} (h : c.bget dev blockno = .ok (b, c')) :
    (c.cached dev blockno = some b ∧ c' = c.setRefcnt b ((c.buf b).refcnt + 1)) ∨
      (c.cached dev blockno = none ∧ c.victim = some b ∧ c' = c.setBuf b ⟨false, dev, blockno, 1⟩) := by
  unfold bget at h
  split at h
  · rename_i b₁ hc
    cases h
    exact .inl ⟨hc, rfl⟩
  · rename_i hc
    split at h
    · rename_i b₁ hv
      cases h
      exact .inr ⟨hc, hv, rfl⟩
    · cases h

/-- `bget` fails only when no buffer is free. -/
theorem bget_error {dev blockno : Nat} {e : String} (h : c.bget dev blockno = .error e) :
    e = "bget: no buffers" := by
  unfold bget at h
  split at h
  · cases h
  · split at h
    · cases h
    · exact (Except.error.inj h).symm

end Bcache

/-! ## The list order

The ring holds every buffer once, ordered by when each was last moved to the
front: `bget`'s loops then read the list forwards and backwards. -/

/-- `l` is the cache's list, from `head.next` to `head.prev`, most recently
moved first. -/
structure Bio.LruList (s : Bio) (l : List (Fin nbuf)) : Prop where
  ring : s.cache.links.Ring l
  nodup : l.Nodup
  mem : ∀ b, b ∈ l
  sorted : l.Pairwise fun a b => s.movedAt b < s.movedAt a

namespace Bio.LruList

variable {s s' : Bio} {l : List (Fin nbuf)}

theorem length_le (h : s.LruList l) : l.length ≤ nbuf := by
  have := h.nodup.length_le_card
  rwa [Fintype.card_fin] at this

/-- The first loop of `bget` finds the first buffer of the list holding the block. -/
theorem cached (h : s.LruList l) (dev blockno : Nat) :
    s.cache.cached dev blockno =
      l.find? fun b => (s.cache.buf b).dev == dev && (s.cache.buf b).blockno == blockno :=
  h.ring.find _ h.length_le

/-- The second loop finds the last free buffer of the list. -/
theorem victim (h : s.LruList l) :
    s.cache.victim = l.reverse.find? fun b => (s.cache.buf b).refcnt == 0 :=
  h.ring.find_swap _ h.length_le

/-- A call that moves nothing keeps the list. -/
theorem of_links (h : s.LruList l) (hl : s'.cache.links = s.cache.links)
    (hm : s'.movedAt = s.movedAt) : s'.LruList l :=
  ⟨hl ▸ h.ring, h.nodup, h.mem, hm ▸ h.sorted⟩

end Bio.LruList

/-! ## The invariant -/

/-- What holds between any two calls. -/
structure BioInv (s : Bio) : Prop where
  lru : ∃ l, s.LruList l
  refcnt : ∀ b, (s.cache.buf b).refcnt = s.held b + s.pins b
  keys : ∀ a b, s.assigned a = true → (s.cache.buf a).dev = (s.cache.buf b).dev →
    (s.cache.buf a).blockno = (s.cache.buf b).blockno → a = b
  moved_lt : ∀ b, s.movedAt b < s.clock

section Steps

variable {s s' : Bio}

theorem bioInv_init : BioInv Bio.init := by
  refine ⟨⟨(List.finRange nbuf).reverse, ?_⟩, fun _ => rfl, fun a b h _ _ => ?_,
    fun b => show b.val < nbuf from b.isLt⟩
  · have hnd : (List.finRange nbuf).reverse.Nodup := List.nodup_reverse.mpr (List.nodup_finRange _)
    refine ⟨?_, hnd, fun b => List.mem_reverse.mpr (List.mem_finRange b), ?_⟩
    · -- `binit` pushes `buf[0]` first, so the list runs from `buf[NBUF-1]` down
      have h : ((List.finRange nbuf).foldl Links.pushFront
          (⟨fun _ => none, fun _ => none⟩ : Links (Fin nbuf))).Ring
          ((List.finRange nbuf).reverse ++ []) :=
        Links.Ring.foldl_pushFront (.last rfl rfl) (by simpa using hnd)
      rw [List.append_nil] at h
      exact h
    · rw [List.pairwise_reverse]
      exact List.pairwise_lt_finRange nbuf
  · simp [Bio.init] at h

/-- The first loop of `bget` stops only at a buffer holding the block. -/
theorem BioInv.cached_some (h : BioInv s) {dev blockno : Nat} {b : Fin nbuf}
    (hc : s.cache.cached dev blockno = some b) :
    (s.cache.buf b).dev = dev ∧ (s.cache.buf b).blockno = blockno := by
  obtain ⟨l, hl⟩ := h.lru
  rw [hl.cached] at hc
  simpa using List.find?_some hc

/-- When the first loop finds nothing, no buffer holds the block. -/
theorem BioInv.cached_none (h : BioInv s) {dev blockno : Nat}
    (hc : s.cache.cached dev blockno = none) (x : Fin nbuf) :
    ¬((s.cache.buf x).dev = dev ∧ (s.cache.buf x).blockno = blockno) := by
  obtain ⟨l, hl⟩ := h.lru
  rw [hl.cached, List.find?_eq_none] at hc
  intro hx
  exact hc x (hl.mem x) (by simp [hx.1, hx.2])

/-- The second loop stops only at a free buffer. -/
theorem BioInv.victim_some (h : BioInv s) {b : Fin nbuf} (hv : s.cache.victim = some b) :
    (s.cache.buf b).refcnt = 0 := by
  obtain ⟨l, hl⟩ := h.lru
  rw [hl.victim] at hv
  simpa using List.find?_some hv

/-- A call that keeps every buffer's block and every assignment keeps the
blocks apart. -/
theorem BioInv.keys_of_eq (h : BioInv s) (ha : s'.assigned = s.assigned)
    (hd : ∀ x, (s'.cache.buf x).dev = (s.cache.buf x).dev)
    (hb : ∀ x, (s'.cache.buf x).blockno = (s.cache.buf x).blockno) :
    ∀ a b, s'.assigned a = true → (s'.cache.buf a).dev = (s'.cache.buf b).dev →
      (s'.cache.buf a).blockno = (s'.cache.buf b).blockno → a = b := by
  intro a b hab hdev hblk
  rw [ha] at hab
  rw [hd, hd] at hdev
  rw [hb, hb] at hblk
  exact h.keys a b hab hdev hblk

theorem BioInv.bread (h : BioInv s) {dev blockno : Nat}
    (hs : s.step (.bread dev blockno) = .ok s') : BioInv s' := by
  obtain ⟨l, hl⟩ := h.lru
  simp only [Bio.step, Bcache.bread_eq] at hs
  cases hg : s.cache.bget dev blockno with
  | error e => simp [hg, bind, Except.bind, Except.map] at hs
  | ok r =>
    obtain ⟨b, c⟩ := r
    simp only [hg, Except.map, bind, Except.bind, pure, Except.pure, Except.ok.injEq] at hs
    subst hs
    rcases Bcache.bget_cases hg with ⟨hc, rfl⟩ | ⟨hc, hv, rfl⟩
    · -- a hit: one more reference to `b`, no block moves
      have hkey : ∀ x, ((s.cache.setRefcnt b ((s.cache.buf b).refcnt + 1)).setBuf b
          { (s.cache.setRefcnt b ((s.cache.buf b).refcnt + 1)).buf b with valid := true }).buf x =
          if x = b then { s.cache.buf b with refcnt := (s.cache.buf b).refcnt + 1, valid := true }
          else s.cache.buf x := by
        intro x
        by_cases hxb : x = b
        · subst hxb
          simp [Bcache.setRefcnt_buf]
        · simp [Bcache.setRefcnt_buf, hxb]
      simp only [hc]
      refine ⟨⟨l, hl.of_links rfl rfl⟩, fun x => ?_, fun x y hx hd hb => ?_, fun x => ?_⟩
      · rw [hkey]
        by_cases hxb : x = b
        · subst hxb
          simp only [if_true, Function.update_self, h.refcnt]
          omega
        · simp only [hxb, if_false, Function.update_of_ne hxb, h.refcnt]
      · rw [hkey, hkey] at hd hb
        refine h.keys x y hx ?_ ?_
        · by_cases hxb : x = b <;> by_cases hyb : y = b <;> simp_all
        · by_cases hxb : x = b <;> by_cases hyb : y = b <;> simp_all
      · exact Nat.lt_succ_of_lt (h.moved_lt x)
    · -- a miss: `b` was free, and no buffer held the block it now takes
      have hfree := h.victim_some hv
      have hnone := h.cached_none hc
      have hkey : ∀ x, ((s.cache.setBuf b ⟨false, dev, blockno, 1⟩).setBuf b
          { (s.cache.setBuf b ⟨false, dev, blockno, 1⟩).buf b with valid := true }).buf x =
          if x = b then ⟨true, dev, blockno, 1⟩ else s.cache.buf x := by
        intro x
        by_cases hxb : x = b
        · subst hxb
          simp
        · simp [hxb]
      simp only [hc]
      refine ⟨⟨l, hl.of_links rfl rfl⟩, fun x => ?_, fun x y hx hd hb => ?_, fun x => ?_⟩
      · rw [hkey]
        have := h.refcnt b
        by_cases hxb : x = b
        · subst hxb
          simp only [if_true, Function.update_self]
          omega
        · simp only [hxb, if_false, Function.update_of_ne hxb, h.refcnt]
      · rw [hkey, hkey] at hd hb
        by_cases hxb : x = b <;> by_cases hyb : y = b
        · rw [hxb, hyb]
        · simp only [hxb, hyb, if_true, if_false] at hd hb
          exact absurd ⟨hd.symm, hb.symm⟩ (hnone y)
        · simp only [hxb, hyb, if_true, if_false] at hd hb
          exact absurd ⟨hd, hb⟩ (hnone x)
        · simp only [hxb, hyb, if_false] at hd hb
          have hx' : s.assigned x = true := by simpa [Function.update_of_ne hxb] using hx
          exact h.keys x y hx' hd hb
      · exact Nat.lt_succ_of_lt (h.moved_lt x)

theorem BioInv.brelse (h : BioInv s) {b : Fin nbuf} (hheld : 0 < s.held b)
    (hs : s.step (.brelse b) = .ok s') : BioInv s' := by
  obtain ⟨l, hl⟩ := h.lru
  simp only [Bio.step, pure, Except.pure, Except.ok.injEq] at hs
  subst hs
  have hr := h.refcnt b
  have hbuf := Bcache.brelse_buf (c := s.cache) (b := b)
  refine ⟨?_, fun x => ?_, h.keys_of_eq rfl (fun x => by simp [hbuf]) (fun x => by simp [hbuf]),
    fun x => ?_⟩
  · -- the last reference moves `b` to the front, stamped with the current time
    simp only [hbuf, Bcache.setRefcnt_refcnt, if_true]
    by_cases hz : (s.cache.buf b).refcnt - 1 = 0
    · have hlinks := Bcache.brelse_links (c := s.cache) (b := b)
      rw [if_pos hz] at hlinks
      have hbl : b ∉ l.erase b := hl.nodup.not_mem_erase
      refine ⟨b :: l.erase b, ?_, List.nodup_cons.mpr ⟨hbl, hl.nodup.erase b⟩, fun x => ?_, ?_⟩
      · simp only [hlinks]
        exact hl.ring.moveFront hl.nodup (hl.mem b)
      · by_cases hxb : x = b
        · rw [hxb]
          exact List.mem_cons_self ..
        · exact List.mem_cons_of_mem _ ((List.mem_erase_of_ne hxb).mpr (hl.mem x))
      · simp only [if_pos hz]
        refine List.pairwise_cons.mpr ⟨fun y hy => ?_, ?_⟩
        · have hyb : y ≠ b := fun he => hbl (by rw [he] at hy; exact hy)
          rw [Function.update_self, Function.update_of_ne hyb]
          exact h.moved_lt y
        · refine (hl.sorted.sublist List.erase_sublist).imp_of_mem fun {y z} hy hz' hlt => ?_
          have hyb : y ≠ b := fun he => hbl (by rw [he] at hy; exact hy)
          have hzb : z ≠ b := fun he => hbl (by rw [he] at hz'; exact hz')
          rw [Function.update_of_ne hyb, Function.update_of_ne hzb]
          exact hlt
    · simp only [if_neg hz]
      exact ⟨l, hl.of_links (by rw [Bcache.brelse_links, if_neg hz]) rfl⟩
  · simp only [hbuf, Bcache.setRefcnt_refcnt]
    by_cases hxb : x = b
    · subst hxb
      simp only [if_true, Function.update_self]
      omega
    · simp only [hxb, if_false, Function.update_of_ne hxb, h.refcnt]
  · simp only [hbuf, Bcache.setRefcnt_refcnt, if_true]
    have := h.moved_lt x
    split_ifs
    · by_cases hxb : x = b
      · subst hxb
        simp
      · rw [Function.update_of_ne hxb]
        omega
    · omega

theorem BioInv.bpin (h : BioInv s) {b : Fin nbuf} (hs : s.step (.bpin b) = .ok s') :
    BioInv s' := by
  obtain ⟨l, hl⟩ := h.lru
  simp only [Bio.step, pure, Except.pure, Except.ok.injEq] at hs
  subst hs
  refine ⟨⟨l, hl.of_links rfl rfl⟩, fun x => ?_,
    h.keys_of_eq rfl (fun x => by simp [Bcache.bpin]) (fun x => by simp [Bcache.bpin]),
    fun x => Nat.lt_succ_of_lt (h.moved_lt x)⟩
  simp only [Bcache.bpin, Bcache.setRefcnt_refcnt]
  by_cases hxb : x = b
  · subst hxb
    simp only [if_true, Function.update_self, h.refcnt]
    omega
  · simp only [hxb, if_false, Function.update_of_ne hxb, h.refcnt]

theorem BioInv.bunpin (h : BioInv s) {b : Fin nbuf} (hpin : 0 < s.pins b)
    (hs : s.step (.bunpin b) = .ok s') : BioInv s' := by
  obtain ⟨l, hl⟩ := h.lru
  simp only [Bio.step, pure, Except.pure, Except.ok.injEq] at hs
  subst hs
  refine ⟨⟨l, hl.of_links rfl rfl⟩, fun x => ?_,
    h.keys_of_eq rfl (fun x => by simp [Bcache.bunpin]) (fun x => by simp [Bcache.bunpin]),
    fun x => Nat.lt_succ_of_lt (h.moved_lt x)⟩
  simp only [Bcache.bunpin, Bcache.setRefcnt_refcnt]
  by_cases hxb : x = b
  · subst hxb
    simp only [if_true, Function.update_self, h.refcnt]
    omega
  · simp only [hxb, if_false, Function.update_of_ne hxb, h.refcnt]

/-- The step lemma. -/
theorem BioInv.step (h : BioInv s) {op : BioOp} (ha : s.Allowed op) (hs : s.step op = .ok s') :
    BioInv s' := by
  cases op with
  | bread dev blockno => exact h.bread hs
  | brelse b => exact h.brelse ha hs
  | bpin b => exact h.bpin hs
  | bunpin b => exact h.bunpin ha hs

end Steps

/-- The run lemma. -/
theorem bioInv_invariant : bioSys.Invariant BioInv :=
  TSys.Invariant.of_inductive (fun _ hs => hs ▸ bioInv_init) fun _ _ _ h hst => h.step hst.1 hst.2

/-! ## What `bget` returns

Both loops of `bget` see every buffer: the first in list order, the second
in reverse. -/

section Bget

variable {s : Bio}

/-- A block a buffer was assigned to is found in that buffer. -/
theorem BioInv.bget_cached (h : BioInv s) {dev blockno : Nat} {b : Fin nbuf}
    (ha : s.assigned b = true) (hd : (s.cache.buf b).dev = dev)
    (hb : (s.cache.buf b).blockno = blockno) : ∃ c', s.cache.bget dev blockno = .ok (b, c') := by
  obtain ⟨l, hl⟩ := h.lru
  -- the first loop stops at some buffer with the block, and only `b` has it
  obtain ⟨x, hx⟩ : ∃ x, s.cache.cached dev blockno = some x := by
    rw [hl.cached, ← Option.isSome_iff_exists, List.find?_isSome]
    exact ⟨b, hl.mem b, by simp [hd, hb]⟩
  have hpx := h.cached_some hx
  obtain rfl : b = x := h.keys b x ha (by rw [hd, hpx.1]) (by rw [hb, hpx.2])
  exact ⟨s.cache.setRefcnt b ((s.cache.buf b).refcnt + 1), by simp only [Bcache.bget, hx]⟩

/-- A block no buffer holds gets the free buffer `brelse` moved to the front
longest ago. -/
theorem BioInv.bget_recycled (h : BioInv s) {dev blockno : Nat}
    (hnone : ∀ b, (s.cache.buf b).dev ≠ dev ∨ (s.cache.buf b).blockno ≠ blockno)
    {u : Fin nbuf} (hu : (s.cache.buf u).refcnt = 0) :
    ∃ v c', s.cache.bget dev blockno = .ok (v, c') ∧ c'.buf v = ⟨false, dev, blockno, 1⟩ ∧
      (s.cache.buf v).refcnt = 0 ∧ ∀ w, (s.cache.buf w).refcnt = 0 → s.movedAt v ≤ s.movedAt w := by
  obtain ⟨l, hl⟩ := h.lru
  have hc : s.cache.cached dev blockno = none := by
    rw [hl.cached, List.find?_eq_none]
    intro x _ hx
    simp only [Bool.and_eq_true, beq_iff_eq] at hx
    rcases hnone x with hd | hb
    · exact hd hx.1
    · exact hb hx.2
  -- the second loop reads the list from its oldest end
  obtain ⟨v, hv⟩ : ∃ v, s.cache.victim = some v := by
    rw [hl.victim, ← Option.isSome_iff_exists, List.find?_isSome]
    exact ⟨u, List.mem_reverse.mpr (hl.mem u), by simp [hu]⟩
  have hfind : l.reverse.find? (fun b => (s.cache.buf b).refcnt == 0) = some v := by
    rw [← hl.victim]
    exact hv
  have hsorted : l.reverse.Pairwise fun a b => s.movedAt a < s.movedAt b :=
    List.pairwise_reverse.mpr hl.sorted
  refine ⟨v, s.cache.setBuf v ⟨false, dev, blockno, 1⟩, by simp only [Bcache.bget, hc, hv],
    by simp, ?_, fun w hw => ?_⟩
  · simpa using List.find?_some hfind
  · by_cases hwv : w = v
    · rw [hwv]
    · exact Nat.le_of_lt (find?_rel_of_pairwise hsorted hfind
        (List.mem_reverse.mpr (hl.mem w)) (by simp [hw]) hwv)

end Bget

/-- The buffer cache's representation invariant, and its replacement rule:
the links form one ring through `bcache.head` holding every buffer once;
`refcnt` is the references held plus the log's pins; a buffer `bget`
assigned shares its block with no other; `bget` returns the buffer
caching a block, and otherwise recycles, among the buffers with
`refcnt == 0`, the one `brelse` last moved to the front longest ago. -/
theorem bcache_lru :
    bioSys.Invariant fun s =>
      (∃ l, s.cache.links.Ring l ∧ l.Nodup ∧ ∀ b, b ∈ l) ∧
      (∀ b, (s.cache.buf b).refcnt = s.held b + s.pins b) ∧
      (∀ a b, s.assigned a = true → a ≠ b →
        (s.cache.buf a).dev ≠ (s.cache.buf b).dev ∨
          (s.cache.buf a).blockno ≠ (s.cache.buf b).blockno) ∧
      (∀ dev blockno b, s.assigned b = true → (s.cache.buf b).dev = dev →
        (s.cache.buf b).blockno = blockno → ∃ c', s.cache.bget dev blockno = .ok (b, c')) ∧
      (∀ dev blockno, (∀ b, (s.cache.buf b).dev ≠ dev ∨ (s.cache.buf b).blockno ≠ blockno) →
        ∀ u, (s.cache.buf u).refcnt = 0 →
        ∃ v c', s.cache.bget dev blockno = .ok (v, c') ∧ c'.buf v = ⟨false, dev, blockno, 1⟩ ∧
          (s.cache.buf v).refcnt = 0 ∧
          ∀ w, (s.cache.buf w).refcnt = 0 → s.movedAt v ≤ s.movedAt w) := by
  intro s hs
  have h := bioInv_invariant s hs
  obtain ⟨l, hl⟩ := h.lru
  refine ⟨⟨l, hl.ring, hl.nodup, hl.mem⟩, h.refcnt, fun a b ha hab => ?_,
    fun _ _ _ ha hd hb => h.bget_cached ha hd hb, fun _ _ hnone _ hu => h.bget_recycled hnone hu⟩
  by_cases hd : (s.cache.buf a).dev = (s.cache.buf b).dev
  · exact .inr fun hblk => hab (h.keys a b ha hd hblk)
  · exact .inl hd

/-! ## A buffer freed by `bunpin`

The log pins a buffer it writes (`bpin`) before the writer's `brelse`, which
then leaves `refcnt` at `1` and the buffer where it was; the `bunpin` after
the commit drops `refcnt` to `0` and moves nothing. The buffer has just
become free, yet it keeps the place of its last move to the front, and the
second loop of `bget` takes it before buffers free for much longer. -/

/-- The calls `ops` in turn, each within the callers' promises. -/
def Bio.run (s : Bio) : List BioOp → Option Bio
  | [] => some s
  | op :: ops => if s.Allowed op then (s.step op).toOption.bind fun s' => s'.run ops else none

theorem Bio.reachable_of_run {s s' : Bio} {ops : List BioOp} (hs : bioSys.Reachable s)
    (h : s.run ops = some s') : bioSys.Reachable s' := by
  induction ops generalizing s with
  | nil =>
    cases (Option.some.inj h)
    exact hs
  | cons op ops ih =>
    simp only [Bio.run] at h
    split_ifs at h with ha
    cases hst : s.step op with
    | error e => simp [hst, Except.toOption] at h
    | ok s₁ =>
      simp only [hst, Except.toOption, Option.bind_some] at h
      exact ih (.step hs ⟨ha, hst⟩) h

end Xv6.Kernel
