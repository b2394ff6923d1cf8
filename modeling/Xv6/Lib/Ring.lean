import Mathlib.Data.Nat.ModEq
import Mathlib.Logic.Function.Basic

/-!
# Rings indexed by free-running 32-bit counters

A ring of `cap` cells is read and written through counters that only go up,
wrap modulo `2^32`, and pick their cell modulo `cap`. `window data r w` is the
list of cells from counter `r` up to counter `w`, in order. When `cap` divides
`2^32` a window behaves as a FIFO queue, also when the counters wrap:

* `window_succ_right` — advancing the upper counter appends its cell;
* `window_pop` — advancing the lower counter drops the first cell;
* `window_update_of_lt` — a cell write at `e` leaves every window inside
  `r .. e` alone, as long as `e - r < cap`;
* `window_push` — the last two together: a write then an advance appends;
* `window_dropLast` — moving the upper counter back drops the last cell;
* `window_append` — a window splits at any counter inside it.

Counters of another width read their ring through `cells`, the cells at
natural positions `r, r + 1, …` modulo `cap`: `cells_push` and `cells_cons`
are the push and pop rules at that level, and `cells_congr` moves the start
to any position with the same cell.
-/

namespace Xv6.Lib

variable {α : Type} {cap : Nat} [NeZero cap]

/-- The cell that counter `c` indexes. -/
def slot (cap : Nat) [NeZero cap] (c : UInt32) : Fin cap := Fin.ofNat cap c.toNat

/-- The cells from counter `r` up to, not including, counter `w`. -/
def window (data : Fin cap → α) (r w : UInt32) : List α :=
  (List.range (w - r).toNat).map fun k => data (Fin.ofNat cap (r.toNat + k))

@[simp] theorem length_window (data : Fin cap → α) (r w : UInt32) :
    (window data r w).length = (w - r).toNat := by
  simp [window]

theorem window_eq_nil_iff {data : Fin cap → α} {r w : UInt32} :
    window data r w = [] ↔ r = w := by
  rw [← List.length_eq_zero_iff, length_window, ← UInt32.toNat_inj, UInt32.toNat_sub]
  have := UInt32.toNat_lt r
  have := UInt32.toNat_lt w
  omega

theorem window_self (data : Fin cap → α) (r : UInt32) : window data r r = [] :=
  window_eq_nil_iff.mpr rfl

omit [NeZero cap] in
/-- A counter `w` between `r` and `e` splits the distance from `r` to `e`. -/
theorem toNat_sub_eq_add {r w e : UInt32} (h : (w - r).toNat ≤ (e - r).toNat) :
    (e - r).toNat = (w - r).toNat + (e - w).toNat := by
  rw [UInt32.toNat_sub, UInt32.toNat_sub] at h
  rw [UInt32.toNat_sub, UInt32.toNat_sub, UInt32.toNat_sub]
  have := UInt32.toNat_lt r
  have := UInt32.toNat_lt w
  have := UInt32.toNat_lt e
  omega

omit [NeZero cap] in
/-- Advancing `w` by one, short of a full turn, adds one to `w - r`. -/
theorem toNat_succ_sub {r w : UInt32} (h : (w - r).toNat + 1 < 2 ^ 32) :
    (w + 1 - r).toNat = (w - r).toNat + 1 := by
  simp only [UInt32.toNat_sub, UInt32.toNat_add, UInt32.reduceToNat] at h ⊢
  have := UInt32.toNat_lt r
  have := UInt32.toNat_lt w
  omega

section Dvd

variable (hcap : cap ∣ 2 ^ 32)
include hcap

omit [NeZero cap] in
theorem mod_cap_of_mod_two_pow (a k : Nat) : (a % 2 ^ 32 + k) % cap = (a + k) % cap := by
  rw [Nat.add_mod, Nat.mod_mod_of_dvd _ hcap, ← Nat.add_mod]

/-- Counting `w - r` cells on from `r` lands on `w`, modulo `cap`. -/
theorem ofNat_add_sub_add (r w : UInt32) (k : Nat) :
    Fin.ofNat cap (r.toNat + ((w - r).toNat + k)) = Fin.ofNat cap (w.toNat + k) := by
  obtain ⟨t, ht⟩ := hcap
  have hr := UInt32.toNat_lt r
  apply Fin.ext
  simp only [Fin.val_ofNat, UInt32.toNat_sub]
  calc (r.toNat + ((2 ^ 32 - r.toNat + w.toNat) % 2 ^ 32 + k)) % cap
      = ((2 ^ 32 - r.toNat + w.toNat) % 2 ^ 32 + (r.toNat + k)) % cap := by
        rw [← Nat.add_assoc, Nat.add_comm r.toNat, Nat.add_assoc]
    _ = (2 ^ 32 + (w.toNat + k)) % cap := by
        rw [mod_cap_of_mod_two_pow ⟨t, ht⟩]
        congr 1
        omega
    _ = (w.toNat + k) % cap := by
        rw [ht, Nat.mul_add_mod_self_left]

theorem ofNat_add_sub (r w : UInt32) :
    Fin.ofNat cap (r.toNat + (w - r).toNat) = slot cap w := by
  simpa [slot] using ofNat_add_sub_add hcap r w 0

/-- The window ending one counter later has that counter's cell at its end. -/
theorem window_succ_right (data : Fin cap → α) {r w : UInt32}
    (h : (w - r).toNat + 1 < 2 ^ 32) :
    window data r (w + 1) = window data r w ++ [data (slot cap w)] := by
  rw [window, toNat_succ_sub h, List.range_succ, List.map_append, List.map_singleton,
    ofNat_add_sub hcap]
  rfl

/-- Moving the upper counter back one drops the last cell. -/
theorem window_dropLast (data : Fin cap → α) {r w : UInt32} (hne : r ≠ w) :
    window data r (w - 1) = (window data r w).dropLast := by
  have hlt : (w - 1 - r).toNat + 1 < 2 ^ 32 := by
    have hne' : r.toNat ≠ w.toNat := fun h => hne (UInt32.toNat_inj.mp h)
    simp only [UInt32.toNat_sub, UInt32.reduceToNat]
    have := UInt32.toNat_lt r
    have := UInt32.toNat_lt w
    omega
  have h := window_succ_right hcap data hlt
  rw [UInt32.sub_add_cancel] at h
  rw [h, List.dropLast_concat]

/-- Reading the first cell of a nonempty window. -/
theorem window_pop (data : Fin cap → α) {r w : UInt32} (hne : r ≠ w) :
    window data r w = data (slot cap r) :: window data (r + 1) w := by
  have hne' : r.toNat ≠ w.toNat := fun h => hne (UInt32.toNat_inj.mp h)
  have hlen : (w - r).toNat = (w - (r + 1)).toNat + 1 := by
    rw [UInt32.toNat_sub, UInt32.toNat_sub, UInt32.toNat_add]
    have := UInt32.toNat_lt r
    have := UInt32.toNat_lt w
    simp only [UInt32.reduceToNat]
    omega
  rw [window, hlen, List.range_succ_eq_map, List.map_cons, List.map_map, Nat.add_zero]
  congr 1
  apply List.map_congr_left
  intro k _
  refine congrArg data (Fin.ext ?_)
  simp only [Fin.val_ofNat, UInt32.toNat_add, UInt32.reduceToNat,
    mod_cap_of_mod_two_pow hcap]
  congr 1
  omega

/-- A cell write at counter `e` leaves alone every window that starts at `r`
and stops at or before `e`, when `e` is less than `cap` cells past `r`. -/
theorem window_update_of_lt (data : Fin cap → α) {r w e : UInt32}
    (hw : (w - r).toNat ≤ (e - r).toNat) (he : (e - r).toNat < cap) (x : α) :
    window (Function.update data (slot cap e) x) r w = window data r w := by
  apply List.map_congr_left
  intro k hk
  rw [List.mem_range] at hk
  apply Function.update_of_ne
  rw [← ofNat_add_sub hcap r e]
  intro heq
  -- equal cells `r + k` and `r + (e - r)`, both less than `cap` past `r`
  have hmod : k % cap = (e - r).toNat % cap :=
    Nat.ModEq.add_left_cancel' r.toNat (congrArg Fin.val heq)
  rw [Nat.mod_eq_of_lt (by omega), Nat.mod_eq_of_lt he] at hmod
  omega

/-- A write at the upper counter followed by its advance appends one cell. -/
theorem window_push (data : Fin cap → α) {r w : UInt32}
    (hlt : (w - r).toNat < cap) (hsmall : cap < 2 ^ 32) (x : α) :
    window (Function.update data (slot cap w) x) r (w + 1) = window data r w ++ [x] := by
  rw [window_succ_right hcap _ (by omega), window_update_of_lt hcap _ le_rfl hlt,
    Function.update_self]

/-- A window splits at any counter inside it. -/
theorem window_append (data : Fin cap → α) {r w e : UInt32}
    (h : (w - r).toNat ≤ (e - r).toNat) :
    window data r e = window data r w ++ window data w e := by
  rw [window, toNat_sub_eq_add h, List.range_add, List.map_append, List.map_map]
  congr 1
  apply List.map_congr_left
  intro k _
  simp only [Function.comp, ofNat_add_sub_add hcap]

end Dvd

/-! ## Cells at natural positions -/

section Cells

/-- The `n` cells from position `r` on, positions taken modulo `cap`. -/
def cells (data : Fin cap → α) (r n : Nat) : List α :=
  (List.range n).map fun k => data (Fin.ofNat cap (r + k))

@[simp] theorem length_cells (data : Fin cap → α) (r n : Nat) :
    (cells data r n).length = n := by
  simp [cells]

@[simp] theorem cells_zero (data : Fin cap → α) (r : Nat) : cells data r 0 = [] := rfl

theorem window_eq_cells (data : Fin cap → α) (r w : UInt32) :
    window data r w = cells data r.toNat (w - r).toNat := rfl

/-- One more cell at the end. -/
theorem cells_succ (data : Fin cap → α) (r n : Nat) :
    cells data r (n + 1) = cells data r n ++ [data (Fin.ofNat cap (r + n))] := by
  rw [cells, List.range_succ, List.map_append, List.map_singleton]
  rfl

/-- The first cell, then the cells from the next position. -/
theorem cells_cons (data : Fin cap → α) (r n : Nat) :
    cells data r (n + 1) = data (Fin.ofNat cap r) :: cells data (r + 1) n := by
  rw [cells, List.range_succ_eq_map, List.map_cons, List.map_map, Nat.add_zero]
  congr 1
  apply List.map_congr_left
  intro k _
  simp only [Function.comp, Nat.add_assoc, Nat.add_comm 1 k]

/-- Two starting positions with the same cell read the same cells. -/
theorem cells_congr (data : Fin cap → α) {r r' : Nat} (h : r % cap = r' % cap) (n : Nat) :
    cells data r n = cells data r' n := by
  apply List.map_congr_left
  intro k _
  refine congrArg data (Fin.ext ?_)
  simp only [Fin.val_ofNat]
  rw [Nat.add_mod, h, ← Nat.add_mod]

/-- A write `e` positions on, at or past the end and short of a full turn,
leaves the cells alone. -/
theorem cells_update_of_le (data : Fin cap → α) {r n e : Nat} (hn : n ≤ e) (he : e < cap)
    (x : α) : cells (Function.update data (Fin.ofNat cap (r + e)) x) r n = cells data r n := by
  apply List.map_congr_left
  intro k hk
  rw [List.mem_range] at hk
  apply Function.update_of_ne
  intro heq
  -- equal cells `r + k` and `r + e`, both less than `cap` past `r`
  have hmod : k % cap = e % cap := Nat.ModEq.add_left_cancel' r (congrArg Fin.val heq)
  rw [Nat.mod_eq_of_lt (by omega), Nat.mod_eq_of_lt he] at hmod
  omega

/-- A write at the end followed by one more cell appends the value. -/
theorem cells_push (data : Fin cap → α) {r n : Nat} (hn : n < cap) (x : α) :
    cells (Function.update data (Fin.ofNat cap (r + n)) x) r (n + 1) = cells data r n ++ [x] := by
  rw [cells_succ, cells_update_of_le data le_rfl hn, Function.update_self]

/-- A write at a counter with the cell of the end, then one more cell,
appends the value: the push rule for counters of any width. -/
theorem cells_push_of_mod (data : Fin cap → α) {r n w : Nat} (hw : w % cap = (r + n) % cap)
    (hn : n < cap) (x : α) :
    cells (Function.update data (Fin.ofNat cap w) x) r (n + 1) = cells data r n ++ [x] := by
  have hcell : (Fin.ofNat cap w : Fin cap) = Fin.ofNat cap (r + n) :=
    Fin.ext (by simp only [Fin.val_ofNat, hw])
  rw [hcell, cells_push data hn]

end Cells

end Xv6.Lib
