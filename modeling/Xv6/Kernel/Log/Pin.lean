import Xv6.Kernel.Bio
import Xv6.Kernel.Log.Commit

/-!
# Log absorption and the log's pins in the buffer cache

`log_write` (`kernel/log.c`) records a modified block in `log.lh` and pins
its buffer, so that the cache cannot recycle it before the commit has written
it: its loop looks for the block in `block[0..n)`, `block[i] = b->blockno` is
stored whether the loop found it or not, and only when `i == n` is the buffer
pinned and `n` incremented. `install_trans(0)` unpins the buffer of each
listed block once it is installed.

The model joins the log to the buffer cache of `Xv6.Kernel.Bio`. `LogCache`
holds `log.lh`, `log.outstanding`, and the cache with its counts of references
held and pins taken. `LogObs` observes it from outside: beside the state it
records the blocks of the buffers the file system has passed to `log_write`
since the last commit, from each call and the state before it, so that what
the header holds is compared with the calls made and not with a record the
model of `log_write` keeps itself. File-system calls read blocks of `ROOTDEV` (`bread`, `brelse`),
bracket their operations with `begin_op`/`end_op`, and call `log_write` on
buffers they hold. The `end_op` of the last outstanding operation runs the
whole `commit()` as one step: `write_log`, `write_head`, `install_trans(0)`,
`write_head`, each a sequence of calls on the cache. `log.committing` is set
only inside that step, so it is left out, with the `end_op` panic it guards.
The log calls `brelse` and `bunpin` through `Bio.call`, which fails where the
log would break a caller's promise to the cache.

* `Pinned p`: the cache side of the invariant: exactly the buffers caching a
  block of `p` carry a pin, one each; `Pinned.bread`, `Pinned.brelse`,
  `Pinned.bpin` and `Pinned.bunpin` say what each call does to it.
* `entries_absorb`: `log_write`'s loop and stores append the block to
  `block[0..n)` when it is not there and leave the header as it was when it is.
* `Pinned.installTrans`: `install_trans(0)` removes exactly the pins of the
  listed blocks and hands back every reference it took.
* `log_absorption_pins`: in every reachable state the header lists, once each,
  exactly the blocks passed to `log_write` since the last commit, the pins are one per listed block, and
  the commit `end_op` would run fails only when `bget` runs out of buffers,
  and otherwise leaves every `refcnt` equal to the references held.
-/

namespace Xv6.Kernel

open Xv6.Lib

/-! ## `log.lh` as `log_write` keeps it -/

/-- `struct logheader` in memory: `n` and `int block[LOGSIZE]`. `log_write`
panics before `n` can pass `LOGSIZE`, so the bound is part of the type. -/
structure LogHead where
  n : Nat
  block : Fin logSize → Nat
  n_le : n ≤ logSize

namespace LogHead

/-- `block[i]`, for `i < n`. -/
def get (lh : LogHead) (i : Fin lh.n) : Nat := lh.block (i.castLE lh.n_le)

/-- `block[0..n)`: the blocks the header lists. -/
def entries (lh : LogHead) : List Nat := List.ofFn lh.get

/-- `log.lh.n = 0`. -/
def clear (lh : LogHead) : LogHead := ⟨0, lh.block, Nat.zero_le _⟩

/-- The loop of `log_write` from index `i`:
`for (; i < log.lh.n; i++) if (log.lh.block[i] == b->blockno) break;` -/
def search (lh : LogHead) (blockno i : Nat) : Nat :=
  if h : i < lh.n then
    if lh.block ⟨i, Nat.lt_of_lt_of_le h lh.n_le⟩ = blockno then i else lh.search blockno (i + 1)
  else i
termination_by lh.n - i

theorem search_le (lh : LogHead) (blockno : Nat) {i : Nat} (hi : i ≤ lh.n) :
    lh.search blockno i ≤ lh.n := by
  fun_induction lh.search blockno i with
  | case1 i h _ => omega
  | case2 i h _ ih => exact ih (by omega)
  | case3 i _ => exact hi

/-- The stores of `log_write` after its loop, for `n < LOGSIZE`:
`log.lh.block[i] = b->blockno`, and `log.lh.n++` when `i == n`. -/
def absorb (lh : LogHead) (blockno : Nat) (h : lh.n < logSize) : LogHead :=
  let i : Fin logSize :=
    ⟨lh.search blockno 0, Nat.lt_of_le_of_lt (lh.search_le blockno (Nat.zero_le _)) h⟩
  if i.val = lh.n then ⟨lh.n + 1, Function.update lh.block i blockno, h⟩
  else ⟨lh.n, Function.update lh.block i blockno, lh.n_le⟩

theorem mem_entries {lh : LogHead} {e : Nat} : e ∈ lh.entries ↔ ∃ j, lh.get j = e :=
  List.mem_ofFn

@[simp] theorem entries_clear (lh : LogHead) : lh.clear.entries = [] := rfl

@[simp] theorem n_clear (lh : LogHead) : lh.clear.n = 0 := rfl

@[simp] theorem length_entries (lh : LogHead) : lh.entries.length = lh.n := List.length_ofFn

/-- The loop runs to `n` exactly when no slot from `i` on holds the block. -/
theorem search_eq_n_iff (lh : LogHead) (blockno : Nat) {i : Nat} (hi : i ≤ lh.n) :
    lh.search blockno i = lh.n ↔ ∀ j : Fin lh.n, i ≤ j.val → lh.get j ≠ blockno := by
  fun_induction lh.search blockno i with
  | case1 i h hfound =>
    -- slot `i` holds it
    refine ⟨fun he => absurd he (by omega), fun hall => absurd hfound (hall ⟨i, h⟩ le_rfl)⟩
  | case2 i h hne ih =>
    rw [ih (by omega)]
    constructor
    · intro hall j hj hget
      rcases Nat.eq_or_lt_of_le hj with hji | hji
      · exact hne (by rw [← hget]; exact congrArg lh.block (Fin.ext hji))
      · exact hall j hji hget
    · exact fun hall j hj => hall j (by omega)
  | case3 i h =>
    exact ⟨fun _ j hj => absurd j.isLt (by omega), fun _ => by omega⟩

/-- The loop of `log_write` runs to `n` exactly when the block is not listed. -/
theorem search_zero_eq_n_iff (lh : LogHead) (blockno : Nat) :
    lh.search blockno 0 = lh.n ↔ blockno ∉ lh.entries := by
  rw [lh.search_eq_n_iff blockno (Nat.zero_le _), mem_entries]
  simp

/-- Where the loop stops short of `n`, the slot holds the block. -/
theorem block_search (lh : LogHead) (blockno : Nat) {i : Nat} (h : lh.search blockno i < lh.n) :
    lh.block ⟨lh.search blockno i, Nat.lt_of_lt_of_le h lh.n_le⟩ = blockno := by
  fun_induction lh.search blockno i with
  | case1 i _ hfound => exact hfound
  | case2 i _ _ ih => exact ih h
  | case3 i hlt => exact absurd h hlt

/-- Log absorption: a block the header lists keeps its slot, and any other is
appended. -/
theorem entries_absorb (lh : LogHead) (blockno : Nat) (h : lh.n < logSize) :
    (lh.absorb blockno h).entries =
      if blockno ∈ lh.entries then lh.entries else lh.entries ++ [blockno] := by
  have hsearch := lh.search_eq_n_iff blockno (Nat.zero_le _)
  unfold absorb
  dsimp only
  split_ifs with hn hmem hmem
  · -- the loop ran to `n`, so the block is not listed
    obtain ⟨j, hj⟩ := mem_entries.mp hmem
    exact absurd hj (hsearch.mp hn j (Nat.zero_le _))
  · -- `block[n] = blockno; n++`
    unfold entries get
    rw [List.ofFn_succ_last]
    congr 1
    · apply List.ofFn_inj.mpr
      funext j
      exact Function.update_of_ne (fun he => by
        have := congrArg Fin.val he
        simp at this
        omega) _ _
    · rw [List.singleton_inj]
      show Function.update lh.block _ blockno _ = blockno
      rw [Function.update_apply, if_pos]
      exact Fin.ext (by simpa using hn.symm)
  · -- the loop stopped at the block's slot, which the store leaves as it was
    have hlt : lh.search blockno 0 < lh.n := by
      have := lh.search_le blockno (Nat.zero_le _)
      omega
    rw [Function.update_eq_self_iff.mpr (lh.block_search blockno hlt).symm]
  · have hlt : lh.search blockno 0 < lh.n := by
      have := lh.search_le blockno (Nat.zero_le _)
      omega
    exact absurd (mem_entries.mpr ⟨⟨_, hlt⟩, lh.block_search blockno hlt⟩) hmem

end LogHead

/-! ## The log's calls on the cache -/

namespace Bio

/-- `bread(dev, blockno)` as the log calls it: the buffer `bget` returns, with
the cache after the call. -/
def bread (s : Bio) (dev blockno : Nat) : Except String (Fin nbuf × Bio) := do
  let (b, _) ← s.cache.bread dev blockno
  let s' ← s.step (.bread dev blockno)
  pure (b, s')

/-- `brelse`, `bpin` or `bunpin` by the log. What callers promise the cache
(`Bio.Allowed`) becomes a check, so that breaking it is an error. -/
def call (s : Bio) (op : BioOp) : Except String Bio :=
  if s.Allowed op then s.step op else .error "bio: a caller's promise is broken"

variable {s s' : Bio} {dev blockno : Nat} {b : Fin nbuf}

theorem call_of_allowed {op : BioOp} (h : s.Allowed op) : s.call op = s.step op := if_pos h

theorem bread_error {e : String} (h : s.bread dev blockno = .error e) : e = "bget: no buffers" := by
  unfold bread at h
  cases hg : s.cache.bget dev blockno with
  | error e' =>
    simp only [Bcache.bread_eq, hg, Except.map, bind, Except.bind, Except.error.injEq] at h
    exact h ▸ Bcache.bget_error hg
  | ok r =>
    simp [Bcache.bread_eq, hg, Bio.step, Except.map, bind, Except.bind, pure, Except.pure] at h

/-- What `bread` returns: the buffer `bget` took, marked valid, with one more
reference held; a miss assigns it. -/
theorem bread_ok (h : s.bread dev blockno = .ok (b, s')) :
    ∃ c, s.cache.bget dev blockno = .ok (b, c) ∧ s.step (.bread dev blockno) = .ok s' ∧
      s'.cache = c.setBuf b { c.buf b with valid := true } ∧
      s'.held = Function.update s.held b (s.held b + 1) ∧ s'.pins = s.pins ∧
      s'.assigned = (match s.cache.cached dev blockno with
        | some _ => s.assigned
        | none => Function.update s.assigned b true) := by
  unfold bread at h
  cases hg : s.cache.bget dev blockno with
  | error e => simp [Bcache.bread_eq, hg, Except.map, bind, Except.bind] at h
  | ok r =>
    obtain ⟨b₁, c⟩ := r
    cases hst : s.step (.bread dev blockno) with
    | error e => simp [Bcache.bread_eq, hg, hst, Except.map, bind, Except.bind] at h
    | ok s₁ =>
      simp only [Bcache.bread_eq, hg, hst, Except.map, bind, Except.bind, pure, Except.pure,
        Except.ok.injEq, Prod.mk.injEq] at h
      obtain ⟨rfl, rfl⟩ := h
      refine ⟨c, rfl, rfl, ?_⟩
      simp only [Bio.step, Bcache.bread_eq, hg, Except.map, bind, Except.bind, pure, Except.pure,
        Except.ok.injEq] at hst
      subst hst
      exact ⟨rfl, rfl, rfl, rfl⟩

end Bio

/-- The cache between the log's calls, with `p` the blocks whose buffers the
log has pinned: a buffer is on `ROOTDEV` exactly when `bget` assigned it,
every buffer held is assigned, each block of `p` is cached, and the buffers
that carry a pin are exactly those caching a block of `p`, one pin each. -/
structure Pinned (p : List Nat) (s : Bio) : Prop where
  reach : bioSys.Reachable s
  dev_eq : ∀ x, (s.cache.buf x).dev = if s.assigned x = true then rootdev else 0
  held_assigned : ∀ x, 0 < s.held x → s.assigned x = true
  cached : ∀ e ∈ p, ∃ x, s.assigned x = true ∧ (s.cache.buf x).blockno = e
  pins : ∀ x, s.pins x = if s.assigned x = true ∧ (s.cache.buf x).blockno ∈ p then 1 else 0

namespace Pinned

variable {p : List Nat} {s : Bio}

theorem inv (h : Pinned p s) : BioInv s := bioInv_invariant s h.reach

/-- Two assigned buffers with one block are one. -/
theorem eq_of_blockno (h : Pinned p s) {a b : Fin nbuf} (ha : s.assigned a = true)
    (hb : s.assigned b = true) (hab : (s.cache.buf a).blockno = (s.cache.buf b).blockno) : a = b :=
  h.inv.keys a b ha (by rw [h.dev_eq, h.dev_eq, ha, hb]) hab

/-- A buffer on `ROOTDEV` is one `bget` assigned. -/
theorem assigned_of_dev (h : Pinned p s) {x : Fin nbuf} (hx : (s.cache.buf x).dev = rootdev) :
    s.assigned x = true := by
  rw [h.dev_eq] at hx
  by_contra hna
  rw [if_neg hna] at hx
  exact absurd hx (by decide)

/-- The buffer of a listed block carries the pin. -/
theorem pins_pos (h : Pinned p s) {x : Fin nbuf} (hx : s.assigned x = true)
    (he : (s.cache.buf x).blockno ∈ p) : 0 < s.pins x := by
  rw [h.pins x, if_pos ⟨hx, he⟩]
  exact Nat.one_pos

/-- A block no buffer on `ROOTDEV` holds is not pinned. -/
theorem not_mem_of_cached_none (h : Pinned p s) {e : Nat}
    (hc : s.cache.cached rootdev e = none) : e ∉ p := by
  intro he
  obtain ⟨x, hx, hxe⟩ := h.cached e he
  exact h.inv.cached_none hc x ⟨by rw [h.dev_eq, if_pos hx], hxe⟩

/-- `bread` of a block of `ROOTDEV` returns an assigned buffer holding it, and
takes no pinned buffer from its block. -/
theorem bread_ok (h : Pinned p s) {e : Nat} {r : Fin nbuf × Bio}
    (hr : s.bread rootdev e = .ok r) :
    Pinned p r.2 ∧ r.2.held = Function.update s.held r.1 (s.held r.1 + 1) ∧
      r.2.assigned r.1 = true ∧ (r.2.cache.buf r.1).blockno = e := by
  obtain ⟨b, s'⟩ := r
  obtain ⟨c, hg, hstep, hcache, hheld, hpins, hassigned⟩ := Bio.bread_ok hr
  have hreach : bioSys.Reachable s' :=
    .step h.reach (show bioSys.step s (.bread rootdev e) s' from ⟨trivial, hstep⟩)
  rcases Bcache.bget_cases hg with ⟨hc, rfl⟩ | ⟨hc, hv, rfl⟩
  · -- a hit: every buffer keeps its block, and `b` held this one
    simp only [hc] at hassigned
    have hkey := h.inv.cached_some hc
    have hb : s.assigned b = true := h.assigned_of_dev hkey.1
    have hdev : ∀ x, (s'.cache.buf x).dev = (s.cache.buf x).dev := fun x => by
      rw [hcache, Bcache.setValid_dev, Bcache.setRefcnt_dev]
    have hblk : ∀ x, (s'.cache.buf x).blockno = (s.cache.buf x).blockno := fun x => by
      rw [hcache, Bcache.setValid_blockno, Bcache.setRefcnt_blockno]
    refine ⟨⟨hreach, fun x => ?_, fun x hx => ?_, fun e' he' => ?_, fun x => ?_⟩, hheld,
      by rw [hassigned]; exact hb, by rw [hblk]; exact hkey.2⟩
    · rw [hdev, hassigned, h.dev_eq]
    · rw [hassigned]
      by_cases hxb : x = b
      · rw [hxb]
        exact hb
      · rw [hheld, Function.update_of_ne hxb] at hx
        exact h.held_assigned x hx
    · obtain ⟨x, hx, hxe⟩ := h.cached e' he'
      exact ⟨x, by rw [hassigned]; exact hx, by rw [hblk]; exact hxe⟩
    · rw [hpins, hassigned, hblk, h.pins]
  · -- a miss: `b` was free, so it carried no pin, and no buffer held the block
    have hfree := h.inv.refcnt b
    rw [h.inv.victim_some hv] at hfree
    have hpin0 : s.pins b = 0 := by omega
    have hep : e ∉ p := h.not_mem_of_cached_none hc
    simp only [hc] at hassigned
    have hbuf : ∀ x, s'.cache.buf x = if x = b then ⟨true, rootdev, e, 1⟩ else s.cache.buf x := by
      intro x
      by_cases hxb : x = b
      · subst hxb
        simp [hcache]
      · simp [hcache, hxb]
    refine ⟨⟨hreach, fun x => ?_, fun x hx => ?_, fun e' he' => ?_, fun x => ?_⟩, hheld,
      by rw [hassigned, Function.update_self], by rw [hbuf, if_pos rfl]⟩
    · by_cases hxb : x = b
      · rw [hbuf, hassigned, hxb, if_pos rfl, Function.update_self, if_pos rfl]
      · rw [hbuf, hassigned, if_neg hxb, Function.update_of_ne hxb, h.dev_eq]
    · by_cases hxb : x = b
      · rw [hassigned, hxb, Function.update_self]
      · rw [hheld, Function.update_of_ne hxb] at hx
        rw [hassigned, Function.update_of_ne hxb]
        exact h.held_assigned x hx
    · -- the buffer of a listed block carried a pin, so it was not the one taken
      obtain ⟨x, hx, hxe⟩ := h.cached e' he'
      have hxb : x ≠ b := by
        rintro rfl
        have := h.pins_pos hx (hxe ▸ he')
        omega
      refine ⟨x, by rw [hassigned, Function.update_of_ne hxb]; exact hx, ?_⟩
      rw [hbuf, if_neg hxb]
      exact hxe
    · by_cases hxb : x = b
      · rw [hpins, hxb, hpin0, hbuf, if_pos rfl, if_neg (fun hx => hep hx.2)]
      · rw [hpins, hbuf, hassigned, if_neg hxb, Function.update_of_ne hxb, h.pins]

theorem bread (h : Pinned p s) (e : Nat) :
    Post (· = "bget: no buffers")
      (fun r : Fin nbuf × Bio => Pinned p r.2 ∧
        r.2.held = Function.update s.held r.1 (s.held r.1 + 1) ∧
        r.2.assigned r.1 = true ∧ (r.2.cache.buf r.1).blockno = e)
      (s.bread rootdev e) := by
  cases hr : s.bread rootdev e with
  | error err => exact Bio.bread_error hr
  | ok r => exact h.bread_ok hr

/-- `brelse` of a buffer the log holds hands back one reference. -/
theorem brelse (h : Pinned p s) {b : Fin nbuf} (hb : 0 < s.held b) {R : String → Prop} :
    Post R (fun s' => Pinned p s' ∧ s'.held = Function.update s.held b (s.held b - 1))
      (s.call (.brelse b)) := by
  have hbuf := Bcache.brelse_buf (c := s.cache) (b := b)
  have hdev : ∀ x, ((s.cache.brelse b).buf x).dev = (s.cache.buf x).dev := fun x => by
    rw [hbuf, Bcache.setRefcnt_dev]
  have hblk : ∀ x, ((s.cache.brelse b).buf x).blockno = (s.cache.buf x).blockno := fun x => by
    rw [hbuf, Bcache.setRefcnt_blockno]
  rw [Bio.call_of_allowed (show s.Allowed (.brelse b) from hb)]
  show Pinned p _ ∧ _
  refine ⟨⟨.step h.reach (show bioSys.step s (.brelse b) _ from ⟨hb, rfl⟩), fun x => ?_, fun x hx => ?_, fun e he => ?_, fun x => ?_⟩, rfl⟩
  · exact (hdev x).trans (h.dev_eq x)
  · -- a buffer still held after the call was held before it
    by_cases hxb : x = b
    · subst hxb
      exact h.held_assigned x hb
    · exact h.held_assigned x (by simpa [Function.update_of_ne hxb] using hx)
  · obtain ⟨x, hx, hxe⟩ := h.cached e he
    exact ⟨x, hx, (hblk x).trans hxe⟩
  · show s.pins x = _
    rw [hblk, h.pins]

/-- `bunpin` of the buffer of a listed block takes its one pin, and the block
leaves the list. -/
theorem bunpin (h : Pinned p s) (hnd : p.Nodup) {b : Fin nbuf} (hb : s.assigned b = true)
    (he : (s.cache.buf b).blockno ∈ p) {R : String → Prop} :
    Post R (fun s' => Pinned (p.erase (s.cache.buf b).blockno) s' ∧ s'.held = s.held)
      (s.call (.bunpin b)) := by
  have hpin := h.pins_pos hb he
  have hdev : ∀ x, ((s.cache.bunpin b).buf x).dev = (s.cache.buf x).dev :=
    fun x => Bcache.setRefcnt_dev _ x
  have hblk : ∀ x, ((s.cache.bunpin b).buf x).blockno = (s.cache.buf x).blockno :=
    fun x => Bcache.setRefcnt_blockno _ x
  rw [Bio.call_of_allowed (show s.Allowed (.bunpin b) from hpin)]
  show Pinned _ _ ∧ _
  refine ⟨⟨.step h.reach (show bioSys.step s (.bunpin b) _ from ⟨hpin, rfl⟩), fun x => ?_, fun x hx => h.held_assigned x hx,
    fun e' he' => ?_, fun x => ?_⟩, rfl⟩
  · exact (hdev x).trans (h.dev_eq x)
  · obtain ⟨x, hx, hxe⟩ := h.cached e' (List.mem_of_mem_erase he')
    exact ⟨x, hx, (hblk x).trans hxe⟩
  · show Function.update s.pins b (s.pins b - 1) x = if s.assigned x = true ∧
      ((s.cache.bunpin b).buf x).blockno ∈ p.erase (s.cache.buf b).blockno then 1 else 0
    simp only [hblk, hnd.mem_erase_iff]
    by_cases hxb : x = b
    · -- `b` loses its one pin, and its block is no longer listed
      subst hxb
      rw [Function.update_self, h.pins, if_pos ⟨hb, he⟩, if_neg (fun hx => hx.2.1 rfl)]
    · -- any other listed block is held by another buffer
      rw [Function.update_of_ne hxb, h.pins]
      by_cases hx : s.assigned x = true ∧ (s.cache.buf x).blockno ∈ p
      · have hne : (s.cache.buf x).blockno ≠ (s.cache.buf b).blockno :=
          fun hxe => hxb (h.eq_of_blockno hx.1 hb hxe)
        rw [if_pos hx, if_pos ⟨hx.1, hne, hx.2⟩]
      · rw [if_neg hx, if_neg (fun hx' => hx ⟨hx'.1, hx'.2.2⟩)]

/-- `bpin` of an assigned buffer whose block is not listed gives it one pin,
and the block joins the list. -/
theorem bpin (h : Pinned p s) {b : Fin nbuf} (hb : s.assigned b = true)
    (he : (s.cache.buf b).blockno ∉ p) {R : String → Prop} :
    Post R (fun s' => Pinned (p ++ [(s.cache.buf b).blockno]) s' ∧ s'.held = s.held)
      (s.call (.bpin b)) := by
  have hpin0 : s.pins b = 0 := by rw [h.pins, if_neg (fun hb' => he hb'.2)]
  have hdev : ∀ x, ((s.cache.bpin b).buf x).dev = (s.cache.buf x).dev :=
    fun x => Bcache.setRefcnt_dev _ x
  have hblk : ∀ x, ((s.cache.bpin b).buf x).blockno = (s.cache.buf x).blockno :=
    fun x => Bcache.setRefcnt_blockno _ x
  rw [Bio.call_of_allowed (show s.Allowed (.bpin b) from trivial)]
  show Pinned _ _ ∧ _
  refine ⟨⟨.step h.reach (show bioSys.step s (.bpin b) _ from ⟨trivial, rfl⟩), fun x => ?_, fun x hx => h.held_assigned x hx,
    fun e' he' => ?_, fun x => ?_⟩, rfl⟩
  · exact (hdev x).trans (h.dev_eq x)
  · rcases List.mem_append.mp he' with he' | he'
    · obtain ⟨x, hx, hxe⟩ := h.cached e' he'
      exact ⟨x, hx, (hblk x).trans hxe⟩
    · exact ⟨b, hb, (hblk b).trans (List.mem_singleton.mp he').symm⟩
  · show Function.update s.pins b (s.pins b + 1) x = if s.assigned x = true ∧
      ((s.cache.bpin b).buf x).blockno ∈ p ++ [(s.cache.buf b).blockno] then 1 else 0
    simp only [hblk, List.mem_append, List.mem_singleton]
    by_cases hxb : x = b
    · subst hxb
      rw [Function.update_self, hpin0, if_pos ⟨hb, .inr rfl⟩]
    · -- no other assigned buffer holds `b`'s block
      rw [Function.update_of_ne hxb, h.pins]
      by_cases hx : s.assigned x = true ∧ (s.cache.buf x).blockno ∈ p
      · rw [if_pos hx, if_pos ⟨hx.1, .inl hx.2⟩]
      · refine (if_neg hx).trans (if_neg ?_).symm
        rintro ⟨hxa, hxe | hxe⟩
        · exact hx ⟨hxa, hxe⟩
        · exact hxb (h.eq_of_blockno hxa hb hxe)

end Pinned

/-! ## The log and the cache -/

/-- `log.lh` and `log.outstanding` with the buffer cache. -/
structure LogCache where
  bio : Bio
  lh : LogHead
  outstanding : Nat

/-- The calls of the file system on the log and the cache. -/
inductive LogEv where
  /-- `bread(ROOTDEV, blockno)` -/
  | bread (blockno : Nat)
  /-- `brelse(b)` of a buffer the caller holds -/
  | brelse (b : Fin nbuf)
  | beginOp
  /-- `log_write(b)` of a buffer the caller holds -/
  | logWrite (b : Fin nbuf)
  /-- `end_op()` of an operation that began -/
  | endOp

namespace LogCache

section Commit

variable (L : LogLoc)

/-- One pass of `write_log()`: the buffer of `block[tail]` copied to log
block `tail + 1`. -/
def writeLogPass (s : Bio) (tail blockno : Nat) : Except String Bio := do
  let (toBuf, s) ← s.bread rootdev (L.start + tail + 1)
  let (fromBuf, s) ← s.bread rootdev blockno
  -- `memmove` and `bwrite` take no reference
  let s ← s.call (.brelse fromBuf)
  s.call (.brelse toBuf)

/-- `write_log()`. -/
def writeLog (lh : LogHead) (s : Bio) : Except String Bio :=
  (List.finRange lh.n).foldlM (fun s (tail : Fin lh.n) => writeLogPass L s tail (lh.get tail)) s

/-- `write_head()`: the header block read, written and released. -/
def writeHead (s : Bio) : Except String Bio := do
  let (buf, s) ← s.bread rootdev L.start
  s.call (.brelse buf)

/-- One pass of `install_trans(0)`: log block `tail + 1` copied to the buffer
of `block[tail]`, which is written and unpinned. -/
def installPass (s : Bio) (tail blockno : Nat) : Except String Bio := do
  let (lbuf, s) ← s.bread rootdev (L.start + tail + 1)
  let (dbuf, s) ← s.bread rootdev blockno
  -- `memmove` and `bwrite`, then `if (recovering == 0) bunpin(dbuf)`
  let s ← s.call (.bunpin dbuf)
  let s ← s.call (.brelse lbuf)
  s.call (.brelse dbuf)

/-- `install_trans(0)`. -/
def installTrans (lh : LogHead) (s : Bio) : Except String Bio :=
  (List.finRange lh.n).foldlM (fun s (tail : Fin lh.n) => installPass L s tail (lh.get tail)) s

/-- `commit()`: the header after it, and the cache. -/
def commit (lh : LogHead) (s : Bio) : Except String (LogHead × Bio) :=
  if 0 < lh.n then do
    let s ← writeLog L lh s
    let s ← writeHead L s
    let s ← installTrans L lh s
    let lh := lh.clear
    let s ← writeHead L s
    pure (lh, s)
  else pure (lh, s)

end Commit

/-- After `initlog`: the cache as `binit` leaves it, and `log.lh.n = 0`. -/
def init : LogCache := ⟨Bio.init, ⟨0, fun _ => 0, Nat.zero_le _⟩, 0⟩

/-- `begin_op()`: `none` while it would sleep for log space. -/
def beginOp (s : LogCache) : Option LogCache :=
  if s.lh.n + (s.outstanding + 1) * maxOpBlocks > logSize then none
  else some { s with outstanding := s.outstanding + 1 }

variable (L : LogLoc)

/-- `log_write(b)`. -/
def logWrite (s : LogCache) (b : Fin nbuf) : Except String LogCache :=
  if h : s.lh.n ≥ logSize ∨ s.lh.n ≥ L.size - 1 then .error "too big a transaction"
  else if s.outstanding < 1 then .error "log_write outside of trans"
  else
    let blockno := (s.bio.cache.buf b).blockno
    let lh := s.lh.absorb blockno (by omega)
    if s.lh.search blockno 0 = s.lh.n then do
      -- `bpin(b)` for a block new to the log
      let bio ← s.bio.call (.bpin b)
      pure { s with bio, lh }
    else pure { s with lh }

/-- `end_op()`: the last outstanding operation commits. -/
def endOp (s : LogCache) : Except String LogCache :=
  let s := { s with outstanding := s.outstanding - 1 }
  if s.outstanding = 0 then do
    let (lh, bio) ← commit L s.lh s.bio
    pure { s with bio, lh }
  else pure s

/-- One call: `none` where the caller would break its promise, or where
`begin_op` would sleep. -/
def step (s : LogCache) : LogEv → Option (Except String LogCache)
  | .bread blockno => some ((s.bio.bread rootdev blockno).map fun r => { s with bio := r.2 })
  | .brelse b =>
    if 0 < s.bio.held b then some ((s.bio.call (.brelse b)).map fun bio => { s with bio })
    else none
  | .beginOp => s.beginOp.map .ok
  | .logWrite b => if 0 < s.bio.held b then some (s.logWrite L b) else none
  | .endOp => if 0 < s.outstanding then some (s.endOp L) else none

end LogCache

/-- The log and the cache with the blocks of the buffers the file system has
passed to `log_write` since the last commit, in order. -/
structure LogObs where
  log : LogCache
  logged : List Nat

/-- The record after a call, from the call and the state before it:
`log_write(b)` adds the block that `b` caches, and the `end_op` of the last
outstanding operation, which commits, starts the record afresh. -/
def LogObs.record (o : LogObs) : LogEv → List Nat
  | .logWrite b => o.logged ++ [(o.log.bio.cache.buf b).blockno]
  | .endOp => if o.log.outstanding = 1 then [] else o.logged
  | _ => o.logged

/-- The log and the cache under any sequence of calls of the file system,
observed. -/
def logSys (L : LogLoc) : TSys LogObs LogEv where
  init o := o = ⟨LogCache.init, []⟩
  step o e o' := o.log.step L e = some (.ok o'.log) ∧ o'.logged = o.record e

/-! ## `commit()` keeps the pins apart

Each pass of the commit's loops reads two blocks and hands both buffers
back; `install_trans` unpins in between the buffer of the block it installs.
The references taken are all returned, so the counts of references held come
out as they went in. -/

/-- A reference taken and handed back leaves the counts as they were. -/
theorem update_return {α : Type} [DecidableEq α] {f g : α → Nat} {a : α}
    (hg : g = Function.update f a (f a + 1)) : Function.update g a (g a - 1) = f := by
  rw [hg, Function.update_self, Function.update_idem, Nat.add_sub_cancel, Function.update_eq_self]

/-- References to `a` and `b` taken, then handed back in the same order. -/
theorem update_return_two {α : Type} [DecidableEq α] {f g k : α → Nat} {a b : α}
    (hg : g = Function.update (Function.update f a (f a + 1)) b
      (Function.update f a (f a + 1) b + 1))
    (hk : k = Function.update g a (g a - 1)) : Function.update k b (k b - 1) = f := by
  subst hg hk
  funext x
  simp only [Function.update_apply]
  split_ifs <;> subst_vars <;> first | omega | contradiction

namespace Pinned

variable (L : LogLoc) {p : List Nat} {s : Bio}

theorem writeLogPass (h : Pinned p s) (tail e : Nat) :
    Post (· = "bget: no buffers") (fun s' => Pinned p s' ∧ s'.held = s.held)
      (LogCache.writeLogPass L s tail e) := by
  unfold LogCache.writeLogPass
  refine (h.bread _).bind fun r₁ hr₁ => ?_
  obtain ⟨toBuf, s₁⟩ := r₁
  dsimp only at hr₁
  obtain ⟨h₁, hheld₁, -, -⟩ := hr₁
  refine (h₁.bread e).bind fun r₂ hr₂ => ?_
  obtain ⟨fromBuf, s₂⟩ := r₂
  dsimp only at hr₂
  obtain ⟨h₂, hheld₂, -, -⟩ := hr₂
  refine (h₂.brelse (b := fromBuf) (by simp [hheld₂])).bind fun s₃ ⟨h₃, hheld₃⟩ => ?_
  -- the buffer read second is handed back first
  have hback : s₃.held = s₁.held := by rw [hheld₃]; exact update_return hheld₂
  refine (h₃.brelse (b := toBuf) (by simp [hback, hheld₁])).mono fun s' ⟨h', hheld'⟩ => ⟨h', ?_⟩
  rw [hheld', hback]
  exact update_return hheld₁

theorem writeLog (h : Pinned p s) (lh : LogHead) :
    Post (· = "bget: no buffers") (fun s' => Pinned p s' ∧ s'.held = s.held)
      (LogCache.writeLog L lh s) := by
  unfold LogCache.writeLog
  refine Post.foldlM (I := fun _ t => Pinned p t ∧ t.held = s.held) _
    (fun _ tail _ t _ ht => ?_) ⟨h, rfl⟩
  exact (ht.1.writeLogPass L tail (lh.get tail)).mono fun t' ht' => ⟨ht'.1, ht'.2.trans ht.2⟩

theorem writeHead (h : Pinned p s) :
    Post (· = "bget: no buffers") (fun s' => Pinned p s' ∧ s'.held = s.held)
      (LogCache.writeHead L s) := by
  unfold LogCache.writeHead
  refine (h.bread _).bind fun r hr => ?_
  obtain ⟨buf, s₁⟩ := r
  dsimp only at hr
  obtain ⟨h₁, hheld₁, -, -⟩ := hr
  refine (h₁.brelse (b := buf) (by simp [hheld₁])).mono fun s' ⟨h', hheld'⟩ => ⟨h', ?_⟩
  rw [hheld']
  exact update_return hheld₁

/-- A pass of `install_trans(0)` unpins the buffer of the block it installs,
and that block leaves the pinned list. -/
theorem installPass (h : Pinned p s) (hnd : p.Nodup) (tail : Nat) {e : Nat} (he : e ∈ p) :
    Post (· = "bget: no buffers") (fun s' => Pinned (p.erase e) s' ∧ s'.held = s.held)
      (LogCache.installPass L s tail e) := by
  unfold LogCache.installPass
  refine (h.bread _).bind fun r₁ hr₁ => ?_
  obtain ⟨lbuf, s₁⟩ := r₁
  dsimp only at hr₁
  obtain ⟨h₁, hheld₁, -, -⟩ := hr₁
  refine (h₁.bread e).bind fun r₂ hr₂ => ?_
  obtain ⟨dbuf, s₂⟩ := r₂
  dsimp only at hr₂
  obtain ⟨h₂, hheld₂, hd, hde⟩ := hr₂
  -- `bget` returned the buffer of the block, which carries the block's pin
  refine (h₂.bunpin hnd hd (hde ▸ he)).bind fun s₃ ⟨h₃, hheld₃⟩ => ?_
  rw [hde] at h₃
  have hlbuf : 0 < s₃.held lbuf := by
    rw [hheld₃, hheld₂, hheld₁, Function.update_apply]
    split_ifs <;> simp
  refine (h₃.brelse (b := lbuf) hlbuf).bind fun s₄ ⟨h₄, hheld₄⟩ => ?_
  have hdbuf : 0 < s₄.held dbuf := by
    rw [hheld₄, hheld₃, hheld₂, Function.update_apply]
    split_ifs with hdl
    · subst hdl
      simp [hheld₁]
    · simp
  refine (h₄.brelse (b := dbuf) hdbuf).mono fun s' ⟨h', hheld'⟩ => ⟨h', ?_⟩
  rw [hheld']
  rw [hheld₁] at hheld₂
  rw [hheld₃] at hheld₄
  exact update_return_two hheld₂ hheld₄

/-- `install_trans(0)` removes exactly the pins of the listed blocks. -/
theorem installTrans {lh : LogHead} (h : Pinned lh.entries s) (hnd : lh.entries.Nodup) :
    Post (· = "bget: no buffers") (fun s' => Pinned [] s' ∧ s'.held = s.held)
      (LogCache.installTrans L lh s) := by
  unfold LogCache.installTrans
  have hent : lh.entries = (List.finRange lh.n).map lh.get := List.ofFn_eq_map
  -- after the passes `pre`, the blocks of the slots still to come are pinned
  refine (Post.foldlM (I := fun pre t => ∀ rest, pre ++ rest = List.finRange lh.n →
      Pinned (rest.map lh.get) t ∧ t.held = s.held) _ (fun pre tail rest t hsplit ht => ?_) ?_).mono
    fun t' ht' => ht' [] (List.append_nil _)
  · obtain ⟨ht, hheld⟩ := ht (tail :: rest) hsplit
    have hnd' : ((tail :: rest).map lh.get).Nodup := by
      rw [hent, ← hsplit, List.map_append] at hnd
      exact (List.nodup_append.mp hnd).2.1
    refine (ht.installPass L hnd' tail (e := lh.get tail) (by simp)).mono
      fun t' ⟨ht', hheld'⟩ rest' hrest' => ?_
    -- the slots left after this pass are `rest`
    have hrest : rest' = rest := by
      rw [List.append_assoc, ← hsplit] at hrest'
      simpa using List.append_cancel_left hrest'
    subst hrest
    rw [List.map_cons, List.erase_cons_head] at ht'
    exact ⟨ht', hheld'.trans hheld⟩
  · intro rest hrest
    rw [List.nil_append] at hrest
    subst hrest
    exact ⟨hent ▸ h, rfl⟩

/-- `commit()` leaves no pin and hands back every reference it took. -/
theorem commit {lh : LogHead} (h : Pinned lh.entries s) (hnd : lh.entries.Nodup) :
    Post (· = "bget: no buffers") (fun r => r.1.n = 0 ∧ Pinned [] r.2 ∧ r.2.held = s.held)
      (LogCache.commit L lh s) := by
  unfold LogCache.commit
  split_ifs with hn
  · refine (h.writeLog L lh).bind fun s₁ ⟨h₁, hheld₁⟩ => ?_
    refine (h₁.writeHead L).bind fun s₂ ⟨h₂, hheld₂⟩ => ?_
    refine (h₂.installTrans L hnd).bind fun s₃ ⟨h₃, hheld₃⟩ => ?_
    refine (h₃.writeHead L).bind fun s₄ ⟨h₄, hheld₄⟩ => ?_
    exact Post.pure ⟨rfl, h₄, by rw [hheld₄, hheld₃, hheld₂, hheld₁]⟩
  · -- nothing was logged
    have hnil : lh.entries = [] :=
      List.eq_nil_of_length_eq_zero (by rw [LogHead.length_entries]; omega)
    exact Post.pure ⟨show lh.n = 0 by omega, hnil ▸ h, rfl⟩

end Pinned

/-! ## The invariant -/

/-- What holds between calls: exactly the buffers of the listed blocks carry
the log's pins, one each, the header lists no block twice, and it lists the
blocks passed to `log_write` since the last commit. -/
structure PinInv (o : LogObs) : Prop where
  pinned : Pinned o.log.lh.entries o.log.bio
  nodup : o.log.lh.entries.Nodup
  mem_logged : ∀ e, e ∈ o.log.lh.entries ↔ e ∈ o.logged

namespace PinInv

variable {L : LogLoc} {s s' : LogCache} {l : List Nat}

theorem init : PinInv ⟨LogCache.init, []⟩ :=
  ⟨⟨.init rfl, fun _ => rfl, fun _ hx => absurd hx (Nat.lt_irrefl 0), fun _ he => absurd he (by simp [LogCache.init, LogHead.entries]),
    fun _ => rfl⟩, List.nodup_nil, fun _ => by simp [LogCache.init, LogHead.entries]⟩

theorem bread (h : PinInv ⟨s, l⟩) {blockno : Nat} (hs : s.step L (.bread blockno) = some (.ok s')) :
    PinInv ⟨s', l⟩ := by
  simp only [LogCache.step, Option.some.injEq] at hs
  cases hr : s.bio.bread rootdev blockno with
  | error e =>
    rw [hr] at hs
    cases hs
  | ok r =>
    rw [hr] at hs
    simp only [Except.map, Except.ok.injEq] at hs
    subst hs
    exact ⟨(h.pinned.bread_ok hr).1, h.nodup, h.mem_logged⟩

theorem brelse (h : PinInv ⟨s, l⟩) {b : Fin nbuf} (hs : s.step L (.brelse b) = some (.ok s')) :
    PinInv ⟨s', l⟩ := by
  simp only [LogCache.step] at hs
  split_ifs at hs with hb
  cases hr : s.bio.call (.brelse b) with
  | error e =>
    rw [hr] at hs
    cases hs
  | ok bio =>
    rw [hr] at hs
    simp only [Except.map, Option.some.injEq, Except.ok.injEq] at hs
    subst hs
    exact ⟨((h.pinned.brelse hb (R := fun _ => True)).of_ok hr).1, h.nodup, h.mem_logged⟩

theorem beginOp (h : PinInv ⟨s, l⟩) (hs : s.step L .beginOp = some (.ok s')) : PinInv ⟨s', l⟩ := by
  simp only [LogCache.step, LogCache.beginOp] at hs
  split_ifs at hs
  · simp at hs
  · simp only [Option.map_some, Option.some.injEq, Except.ok.injEq] at hs
    subst hs
    exact ⟨h.pinned, h.nodup, h.mem_logged⟩

/-- `log_write(b)` puts the block of `b` in the header, pinning its buffer
when the block is new to the log. -/
theorem logWrite (h : PinInv ⟨s, l⟩) {b : Fin nbuf} (hs : s.step L (.logWrite b) = some (.ok s')) :
    PinInv ⟨s', l ++ [(s.bio.cache.buf b).blockno]⟩ := by
  simp only [LogCache.step] at hs
  split_ifs at hs with hb
  have hw := Option.some.inj hs
  unfold LogCache.logWrite at hw
  split_ifs at hw with hfull hout
  dsimp only at hw
  split_ifs at hw with hnew
  · -- a block new to the log: its buffer is pinned and the block appended
    have hnot := (s.lh.search_zero_eq_n_iff _).mp hnew
    cases hc : s.bio.call (.bpin b) with
    | error e =>
      rw [hc] at hw
      cases hw
    | ok bio =>
      rw [hc] at hw
      simp only [bind, Except.bind, pure, Except.pure, Except.ok.injEq] at hw
      subst hw
      obtain ⟨hpin, -⟩ :=
        (h.pinned.bpin (h.pinned.held_assigned b hb) hnot (R := fun _ => True)).of_ok hc
      have hent := s.lh.entries_absorb (s.bio.cache.buf b).blockno (by omega)
      rw [if_neg hnot] at hent
      refine ⟨by rw [hent]; exact hpin, ?_, fun e => ?_⟩
      · rw [hent, List.nodup_append]
        exact ⟨h.nodup, List.nodup_singleton _, fun x hx y hy => by
          rw [List.mem_singleton] at hy
          intro hxy
          rw [hxy, hy] at hx
          exact hnot hx⟩
      · simp only [hent, List.mem_append, h.mem_logged]
  · -- a block already listed: the header and the cache are as they were
    have hmem : (s.bio.cache.buf b).blockno ∈ s.lh.entries :=
      not_not.mp fun hn => hnew ((s.lh.search_zero_eq_n_iff _).mpr hn)
    simp only [pure, Except.pure, Except.ok.injEq] at hw
    subst hw
    have hent := s.lh.entries_absorb (s.bio.cache.buf b).blockno (by omega)
    rw [if_pos hmem] at hent
    refine ⟨by rw [hent]; exact h.pinned, by rw [hent]; exact h.nodup, fun e => ?_⟩
    simp only [hent, List.mem_append, List.mem_singleton, ← h.mem_logged]
    exact ⟨Or.inl, fun he => he.elim id fun he => he ▸ hmem⟩

/-- `end_op()`: the last outstanding operation commits, which empties the
header; any other leaves it as it was. -/
theorem endOp (h : PinInv ⟨s, l⟩) (hs : s.step L .endOp = some (.ok s')) :
    PinInv ⟨s', if s.outstanding = 1 then [] else l⟩ := by
  simp only [LogCache.step] at hs
  split_ifs at hs with hpos
  have he := Option.some.inj hs
  unfold LogCache.endOp at he
  dsimp only at he
  split_ifs at he with hz
  · -- the last operation: the commit empties the header and takes every pin
    rw [if_pos (by omega)]
    cases hc : LogCache.commit L s.lh s.bio with
    | error e =>
      rw [hc] at he
      cases he
    | ok r =>
      rw [hc] at he
      obtain ⟨lh, bio⟩ := r
      simp only [bind, Except.bind, pure, Except.pure, Except.ok.injEq] at he
      subst he
      obtain ⟨hn, hpin, -⟩ := (h.pinned.commit L h.nodup).of_ok hc
      have hnil : lh.entries = [] :=
        List.eq_nil_of_length_eq_zero (by rw [LogHead.length_entries]; exact hn)
      exact ⟨by rw [hnil]; exact hpin, by rw [hnil]; exact List.nodup_nil, fun e => by simp [hnil]⟩
  · rw [if_neg (by omega)]
    simp only [pure, Except.pure, Except.ok.injEq] at he
    subst he
    exact ⟨h.pinned, h.nodup, h.mem_logged⟩

/-- The step lemma: each call keeps the invariant with the observer's record. -/
theorem step {o o' : LogObs} (h : PinInv o) {e : LogEv} (hs : (logSys L).step o e o') :
    PinInv o' := by
  obtain ⟨s, l⟩ := o
  obtain ⟨s', l'⟩ := o'
  obtain ⟨hs, rfl⟩ := hs
  cases e with
  | bread blockno => exact h.bread hs
  | brelse b => exact h.brelse hs
  | beginOp => exact h.beginOp hs
  | logWrite b => exact h.logWrite hs
  | endOp => exact h.endOp hs

end PinInv

/-- The run lemma. -/
theorem pinInv_invariant (L : LogLoc) : (logSys L).Invariant PinInv :=
  TSys.Invariant.of_inductive (fun _ hs => hs ▸ PinInv.init) fun _ _ _ h hst => h.step hst

/-- Log absorption keeps the header a set with one pin per entry: in every
reachable state `block[0..n)` has no block twice and lists exactly the blocks
of the buffers passed to `log_write` since the last commit, so that `n` is
their number; the buffers that carry a pin are exactly those of the listed
blocks, one pin each, and every `refcnt` is the references held plus the
pins. The commit the last `end_op` runs fails only when `bget` finds no free
buffer; otherwise it clears the header, `install_trans(0)` has removed every
pin, every reference the commit took is back, and each `refcnt` is the number
of references held. -/
theorem log_absorption_pins (L : LogLoc) :
    (logSys L).Invariant fun o =>
      o.log.lh.entries.Nodup ∧ (∀ e, e ∈ o.log.lh.entries ↔ e ∈ o.logged) ∧
      o.log.lh.n = o.logged.toFinset.card ∧
      (∀ e ∈ o.log.lh.entries, ∃ x, o.log.bio.assigned x = true ∧ (o.log.bio.cache.buf x).blockno = e) ∧
      (∀ x, o.log.bio.pins x =
        if o.log.bio.assigned x = true ∧ (o.log.bio.cache.buf x).blockno ∈ o.log.lh.entries then 1
        else 0) ∧
      (∀ x, (o.log.bio.cache.buf x).refcnt = o.log.bio.held x + o.log.bio.pins x) ∧
      (∀ err, LogCache.commit L o.log.lh o.log.bio = .error err → err = "bget: no buffers") ∧
      (∀ lh bio, LogCache.commit L o.log.lh o.log.bio = .ok (lh, bio) → lh.n = 0 ∧
        ∀ x, bio.pins x = 0 ∧ bio.held x = o.log.bio.held x ∧ (bio.cache.buf x).refcnt = bio.held x) := by
  intro o ho
  have h := pinInv_invariant L o ho
  have hcommit := h.pinned.commit L h.nodup
  refine ⟨h.nodup, h.mem_logged, ?_, h.pinned.cached, h.pinned.pins, h.pinned.inv.refcnt,
    fun err herr => hcommit.of_error herr, fun lh bio hok => ?_⟩
  · -- `n` counts the distinct blocks logged
    rw [← LogHead.length_entries, ← List.toFinset_card_of_nodup h.nodup]
    congr 1
    ext e
    simp [h.mem_logged]
  · obtain ⟨hn, hpin, hheld⟩ := hcommit.of_ok hok
    refine ⟨hn, fun x => ?_⟩
    have hx : bio.pins x = 0 := by
      rw [hpin.pins]
      simp
    exact ⟨hx, congrFun hheld x, by rw [hpin.inv.refcnt, hx, Nat.add_zero]⟩

end Xv6.Kernel
