import Mathlib.Logic.Function.Basic
import Mathlib.Data.List.Nodup

/-!
# Circular doubly linked lists through a sentinel

The nodes of the list are `some x`; the sentinel (a list head such as
`bcache.head`) is `none`. `Links` holds the `next` and `prev` pointer of every
node and of the sentinel, and `Ring L l` says that following `next` from the
sentinel visits exactly the elements of `l`, in order, and comes back, with
every `prev` pointing back.

The two pointer operations of a move-to-front list are here, written as the C
code writes them, with what each does to the ring:

* `unlink` (`x->next->prev = x->prev; x->prev->next = x->next`) removes `x`
  (`Ring.unlink`);
* `pushFront` (`x->next = head.next; x->prev = &head; head.next->prev = x;
  head.next = x`) puts `x` first (`Ring.pushFront`);

and the loop `for (b = head.next; b != &head; b = b->next)` with its mirror
over `prev` finds what `List.find?` finds in the list and in its reverse
(`Ring.find`, `Ring.find_swap`).
-/

namespace Xv6.Lib

/-- The `next` and `prev` pointers of the nodes `some x` and of the sentinel `none`. -/
structure Links (β : Type) where
  next : Option β → Option β
  prev : Option β → Option β

namespace Links

variable {β : Type}

/-- `Seg L p xs q`: `next` leads from `p` through `xs` to `q`, and `prev` leads
back. -/
inductive Seg (L : Links β) : Option β → List β → Option β → Prop
  | last {p q} : L.next p = q → L.prev q = p → Seg L p [] q
  | link {p x xs q} : L.next p = some x → L.prev (some x) = p → Seg L (some x) xs q →
      Seg L p (x :: xs) q

/-- The ring through the sentinel holds `l`, from `head.next` to `head.prev`. -/
def Ring (L : Links β) (l : List β) : Prop := L.Seg none l none

/-- The same links walked the other way. -/
def swap (L : Links β) : Links β := ⟨L.prev, L.next⟩

/-- `for (b = start; b != &head; b = b->next) if (P(b)) return b;`, for at
most `k` nodes. -/
def find (L : Links β) (P : β → Bool) : Option β → Nat → Option β
  | none, _ => none
  | some _, 0 => none
  | some x, k + 1 => if P x then some x else L.find P (L.next (some x)) k

/-! ## Segments -/

variable {L L' : Links β}

/-- A segment splits at any of its nodes. -/
theorem seg_append {p q : Option β} {xs ys : List β} {y : β} :
    L.Seg p (xs ++ y :: ys) q ↔ L.Seg p xs (some y) ∧ L.Seg (some y) ys q := by
  induction xs generalizing p with
  | nil =>
    rw [List.nil_append]
    constructor
    · rintro (_ | ⟨hn, hp, hs⟩)
      exact ⟨.last hn hp, hs⟩
    · rintro ⟨h1, hs⟩
      cases h1 with
      | last hn hp => exact .link hn hp hs
  | cons x xs ih =>
    rw [List.cons_append]
    constructor
    · rintro (_ | ⟨hn, hp, hs⟩)
      obtain ⟨h1, h2⟩ := ih.mp hs
      exact ⟨.link hn hp h1, h2⟩
    · rintro ⟨h1, h2⟩
      cases h1 with
      | link hn hp h1 => exact .link hn hp (ih.mpr ⟨h1, h2⟩)

/-- The frame rule: a segment reads `next` only at `p` and its nodes, and
`prev` only at its nodes and `q`. -/
theorem Seg.frame {p q : Option β} {xs : List β} (h : L.Seg p xs q)
    (hn : ∀ y, (y = p ∨ ∃ x ∈ xs, y = some x) → L'.next y = L.next y)
    (hp : ∀ y, ((∃ x ∈ xs, y = some x) ∨ y = q) → L'.prev y = L.prev y) : L'.Seg p xs q := by
  induction h with
  | last hnext hprev =>
    refine .last ?_ ?_
    · rw [hn _ (.inl rfl), hnext]
    · rw [hp _ (.inr rfl), hprev]
  | @link p x xs q hnext hprev _ ih =>
    refine .link ?_ ?_ (ih ?_ ?_)
    · rw [hn _ (.inl rfl), hnext]
    · rw [hp _ (.inl ⟨x, List.mem_cons_self .., rfl⟩), hprev]
    · rintro y (rfl | ⟨z, hz, rfl⟩)
      · exact hn _ (.inr ⟨x, List.mem_cons_self .., rfl⟩)
      · exact hn _ (.inr ⟨z, List.mem_cons_of_mem _ hz, rfl⟩)
    · rintro y (⟨z, hz, rfl⟩ | rfl)
      · exact hp _ (.inl ⟨z, List.mem_cons_of_mem _ hz, rfl⟩)
      · exact hp _ (.inr rfl)

/-- Read backwards, a segment is a segment of the swapped links. -/
theorem Seg.swap {p q : Option β} {xs : List β} (h : L.Seg p xs q) :
    L.swap.Seg q xs.reverse p := by
  induction h with
  | last hnext hprev => exact .last hprev hnext
  | link hnext hprev _ ih =>
    rw [List.reverse_cons]
    exact seg_append.mpr ⟨ih, .last hprev hnext⟩

/-- The loop over `next` from the node after `p` finds the first match of
the segment, when it may visit all of it. -/
theorem Seg.find {p : Option β} {xs : List β} (h : L.Seg p xs none) (P : β → Bool) {k : Nat}
    (hk : xs.length ≤ k) : L.find P (L.next p) k = xs.find? P := by
  induction xs generalizing p k with
  | nil =>
    cases h with
    | last hnext _ =>
      rw [hnext]
      cases k <;> rfl
  | cons x xs ih =>
    cases h with
    | link hnext _ hs =>
      obtain ⟨k, rfl⟩ : ∃ k', k = k' + 1 := ⟨k - 1, by simp at hk; omega⟩
      rw [hnext, Links.find, List.find?_cons]
      cases P x with
      | true => rfl
      | false => exact ih hs (by simpa using hk)

/-! ## The ring -/

/-- `bget`'s first loop: from `head.next`, the first element that matches. -/
theorem Ring.find {l : List β} (h : L.Ring l) (P : β → Bool) {k : Nat} (hk : l.length ≤ k) :
    L.find P (L.next none) k = l.find? P :=
  Seg.find h P hk

/-- `bget`'s second loop: from `head.prev` over `prev`, the last element that
matches. -/
theorem Ring.find_swap {l : List β} (h : L.Ring l) (P : β → Bool) {k : Nat}
    (hk : l.length ≤ k) : L.swap.find P (L.prev none) k = l.reverse.find? P :=
  Seg.find (Seg.swap h) P (by simpa using hk)

/-- The first link of a segment leads into it or to its end. -/
theorem Seg.next_first {p q : Option β} {xs : List β} (h : L.Seg p xs q) :
    L.next p = q ∨ ∃ z ∈ xs, L.next p = some z := by
  cases h with
  | last hn _ => exact .inl hn
  | link hn _ _ => exact .inr ⟨_, List.mem_cons_self .., hn⟩

/-- The last link of a segment leads back into it or to its start. -/
theorem Seg.prev_last {p q : Option β} {xs : List β} (h : L.Seg p xs q) :
    L.prev q = p ∨ ∃ z ∈ xs, L.prev q = some z := by
  induction h with
  | last _ hp => exact .inl hp
  | link _ _ _ ih =>
    rcases ih with h | ⟨z, hz, h⟩
    · exact .inr ⟨_, List.mem_cons_self .., h⟩
    · exact .inr ⟨z, List.mem_cons_of_mem _ hz, h⟩

/-! ## Unlinking and pushing -/

section Update

variable [DecidableEq β]

/-- `x->next->prev = x->prev; x->prev->next = x->next`. -/
def unlink (L : Links β) (x : β) : Links β :=
  let n := L.next (some x)
  let p := L.prev (some x)
  ⟨Function.update L.next p n, Function.update L.prev n p⟩

/-- `x->next = head.next; x->prev = &head; head.next->prev = x; head.next = x`. -/
def pushFront (L : Links β) (x : β) : Links β :=
  let next := Function.update L.next (some x) (L.next none)
  let prev := Function.update L.prev (some x) none
  let prev := Function.update prev (next none) (some x)
  ⟨Function.update next none (some x), prev⟩

/-- Unlinking a node of a segment whose nodes are distinct and differ from its
ends leaves the segment without it. -/
theorem Seg.unlink {p q : Option β} {xs ys : List β} {x : β} (h : L.Seg p (xs ++ x :: ys) q)
    (hnd : (xs ++ x :: ys).Nodup) (hp : ∀ y ∈ xs ++ x :: ys, p ≠ some y)
    (hq : ∀ y ∈ xs ++ x :: ys, q ≠ some y) : (L.unlink x).Seg p (xs ++ ys) q := by
  induction xs generalizing p with
  | nil =>
    -- `p` is `x`'s predecessor: its `next` and the `prev` of `x`'s successor change
    cases h with
    | link hnext hprev hs =>
      cases hs with
      | last hn _ =>
        refine .last ?_ ?_
        · simp [Links.unlink, hprev, hn]
        · simp [Links.unlink, hprev, hn]
      | @link _ y ys q hn _ hs' =>
        have hy := (List.nodup_cons.mp (List.nodup_cons.mp hnd).2).1
        refine .link ?_ ?_ (hs'.frame ?_ ?_)
        · simp [Links.unlink, hprev, hn]
        · simp [Links.unlink, hprev, hn]
        · -- `next` changed only at `p`, which is none of the nodes
          rintro z (rfl | ⟨w, hw, rfl⟩)
          · simp only [Links.unlink, hprev]
            rw [Function.update_of_ne (hp y (by simp)).symm]
          · simp only [Links.unlink, hprev]
            rw [Function.update_of_ne (hp w (by simp [hw])).symm]
        · -- `prev` changed only at `y`, which is neither a later node nor `q`
          rintro z (⟨w, hw, rfl⟩ | rfl)
          · have hne : some w ≠ some y := fun he => hy (Option.some.inj he ▸ hw)
            simp only [Links.unlink, hn]
            rw [Function.update_of_ne hne]
          · simp only [Links.unlink, hn]
            rw [Function.update_of_ne (hq y (by simp))]
  | cons a xs ih =>
    cases h with
    | link hnext hprev hs =>
      have hnd' := List.nodup_cons.mp hnd
      have hmid := seg_append.mp hs
      -- `unlink` rewrites `next` at `x`'s predecessor and `prev` at its
      -- successor; the first is not `p`, the second is not `a`
      have hP : L.prev (some x) ≠ p := by
        rcases hmid.1.prev_last with h | ⟨z, hz, h⟩
        · rw [h]
          exact (hp a (by simp)).symm
        · rw [h]
          exact (hp z (by simp [hz])).symm
      have hN : L.next (some x) ≠ some a := by
        rcases hmid.2.next_first with h | ⟨z, hz, h⟩
        · rw [h]
          exact hq a (by simp)
        · rw [h]
          intro he
          exact hnd'.1 (List.mem_append_right _ (List.mem_cons_of_mem _ (Option.some.inj he ▸ hz)))
      have hrest := ih hs hnd'.2 (fun y hy he => hnd'.1 (Option.some.inj he ▸ hy))
        (fun y hy => hq y (List.mem_cons_of_mem _ hy))
      refine .link ?_ ?_ hrest
      · simp only [Links.unlink]
        rw [Function.update_of_ne hP.symm, hnext]
      · simp only [Links.unlink]
        rw [Function.update_of_ne hN.symm, hprev]

/-- Unlinking removes an element from the ring. -/
theorem Ring.unlink {xs ys : List β} {x : β} (h : L.Ring (xs ++ x :: ys))
    (hnd : (xs ++ x :: ys).Nodup) : (L.unlink x).Ring (xs ++ ys) :=
  Seg.unlink h hnd (fun _ _ => by simp) (fun _ _ => by simp)

/-- Pushing an element that is not in the ring puts it first. -/
theorem Ring.pushFront {l : List β} (h : L.Ring l) (hnd : l.Nodup) {x : β} (hx : x ∉ l) :
    (L.pushFront x).Ring (x :: l) := by
  cases h with
  | last hn hp =>
    -- the empty ring: `x` becomes its only element
    exact .link (by simp [Links.pushFront]) (by simp [Links.pushFront, hn])
      (.last (by simp [Links.pushFront, hn]) (by simp [Links.pushFront, hn]))
  | @link _ y l _ hn hp hs =>
    have hxy : x ≠ y := fun he => hx (he ▸ List.mem_cons_self ..)
    have hyl := (List.nodup_cons.mp hnd).1
    refine .link (by simp [Links.pushFront]) (by simp [Links.pushFront, hn, hxy])
      (.link (by simp [Links.pushFront, hn]) (by simp [Links.pushFront, hn]) (hs.frame ?_ ?_))
    · -- `next` changed at the sentinel and at `x` only
      rintro z (rfl | ⟨w, hw, rfl⟩)
      · simp [Links.pushFront, Ne.symm hxy]
      · have hwx : w ≠ x := fun he => hx (he ▸ List.mem_cons_of_mem _ hw)
        simp [Links.pushFront, hwx]
    · -- `prev` changed at `x` and at the old first element `y` only
      rintro z (⟨w, hw, rfl⟩ | rfl)
      · have hwx : w ≠ x := fun he => hx (he ▸ List.mem_cons_of_mem _ hw)
        have hwy : w ≠ y := fun he => hyl (he ▸ hw)
        simp [Links.pushFront, hn, hwx, hwy]
      · simp [Links.pushFront, hn]

/-- `brelse`'s relinking, `unlink` then `pushFront`, moves an element of the
ring to the front. -/
theorem Ring.moveFront {l : List β} (h : L.Ring l) (hnd : l.Nodup) {x : β} (hx : x ∈ l) :
    ((L.unlink x).pushFront x).Ring (x :: l.erase x) := by
  obtain ⟨xs, ys, rfl⟩ := List.append_of_mem hx
  have hxs : x ∉ xs := fun hm => (List.nodup_middle.mp hnd |> List.nodup_cons.mp).1
    (List.mem_append_left _ hm)
  have herase : (xs ++ x :: ys).erase x = xs ++ ys := by
    rw [List.erase_append_right _ hxs, List.erase_cons_head]
  have hnd' : (xs ++ ys).Nodup := by
    have := List.nodup_middle.mp hnd
    exact (List.nodup_cons.mp this).2
  have hout : x ∉ xs ++ ys := (List.nodup_cons.mp (List.nodup_middle.mp hnd)).1
  rw [herase]
  exact (h.unlink hnd).pushFront hnd' hout

/-- `binit`'s loop: pushing the elements of `xs` in turn onto a ring of `l`
gives the ring of `xs.reverse ++ l`. -/
theorem Ring.foldl_pushFront {xs l : List β} (h : L.Ring l) (hnd : (xs.reverse ++ l).Nodup) :
    (xs.foldl Links.pushFront L).Ring (xs.reverse ++ l) := by
  induction xs generalizing L l with
  | nil => simpa using h
  | cons x xs ih =>
    rw [List.reverse_cons, List.append_assoc, List.singleton_append] at hnd ⊢
    rw [List.foldl_cons]
    have hxl : (x :: l).Nodup := (List.nodup_append.mp hnd).2.1
    exact ih (h.pushFront (List.nodup_cons.mp hxl).2 (List.nodup_cons.mp hxl).1) hnd

end Update

end Links

/-! ## Finding in an ordered list -/

/-- In a list ordered by `r`, the first element that matches comes before, in
`r`, every other element that matches. -/
theorem find?_rel_of_pairwise {β : Type} {r : β → β → Prop} {P : β → Bool} {l : List β}
    (hl : l.Pairwise r) {v : β} (hv : l.find? P = some v) {u : β} (hu : u ∈ l)
    (hP : P u = true) (huv : u ≠ v) : r v u := by
  obtain ⟨-, as, bs, rfl, has⟩ := List.find?_eq_some_iff_append.mp hv
  rcases List.mem_append.mp hu with hua | hub
  · have := has u hua
    rw [hP] at this
    cases this
  · rcases List.mem_cons.mp hub with rfl | hbs
    · exact absurd rfl huv
    · exact (List.pairwise_cons.mp (List.pairwise_append.mp hl).2.1).1 u hbs

end Xv6.Lib
