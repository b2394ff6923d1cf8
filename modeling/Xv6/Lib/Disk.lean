import Mathlib.Data.Set.Function
import Mathlib.Data.List.TakeDrop

/-!
# Synchronous block writes and crashes

A disk maps block numbers to block contents. A program that talks to the disk
through synchronous, atomic, in-order block writes is described by the list
of its writes: each write names its target block, and its data may depend on
what the disk holds when it is issued (the program read it back first). A
crash after `k` writes leaves `run (ws.take k) d`.

The lemmas here are the whole interface later proofs use:

* `run_append` — how runs compose;
* `run_apply_of_forall_ne` — the frame rule: a block no write targets keeps
  its contents;
* `run_congr_of_eqOn` — a run of writes whose data only reads a set of blocks
  that no write targets behaves the same from two disks that agree on those
  blocks, at every block a write targets.
-/

namespace Xv6.Lib

/-- A disk: block number ↦ contents. -/
abbrev Disk (β : Type) := Nat → β

/-- One block write: the target block and the data, computed from the disk at
the moment the write is issued. -/
structure Write (β : Type) where
  blk : Nat
  data : Disk β → β

namespace Write

variable {β : Type}

/-- A write of fixed data. -/
def const (b : Nat) (v : β) : Write β := ⟨b, fun _ => v⟩

/-- The effect of one write on the disk. -/
def apply (w : Write β) (d : Disk β) : Disk β := Function.update d w.blk (w.data d)

/-- Run a list of writes in order. -/
def run : List (Write β) → Disk β → Disk β
  | [], d => d
  | w :: ws, d => run ws (w.apply d)

/-- The disk after a crash that lets the first `k` writes through. -/
def crash (ws : List (Write β)) (k : Nat) (d : Disk β) : Disk β := run (ws.take k) d

/-- The data of `w` depends only on the blocks in `R`. -/
def ReadsIn (w : Write β) (R : Set Nat) : Prop :=
  ∀ d d' : Disk β, Set.EqOn d d' R → w.data d = w.data d'

@[simp] theorem run_nil (d : Disk β) : run [] d = d := rfl

@[simp] theorem run_cons (w : Write β) (ws : List (Write β)) (d : Disk β) :
    run (w :: ws) d = run ws (w.apply d) := rfl

theorem apply_self (w : Write β) (d : Disk β) : w.apply d w.blk = w.data d := by
  simp [apply]

theorem apply_of_ne (w : Write β) (d : Disk β) {x : Nat} (h : x ≠ w.blk) :
    w.apply d x = d x := by
  simp [apply, h]

theorem run_append (ws vs : List (Write β)) (d : Disk β) :
    run (ws ++ vs) d = run vs (run ws d) := by
  induction ws generalizing d with
  | nil => rfl
  | cons w ws ih => exact ih (w.apply d)

theorem run_singleton (w : Write β) (d : Disk β) : run [w] d = w.apply d := rfl

/-- The frame rule: a block no write targets keeps its contents. -/
theorem run_apply_of_forall_ne {ws : List (Write β)} {x : Nat}
    (h : ∀ w ∈ ws, w.blk ≠ x) (d : Disk β) : run ws d x = d x := by
  induction ws generalizing d with
  | nil => rfl
  | cons w ws ih =>
    rw [run_cons, ih (fun v hv => h v (List.mem_cons_of_mem _ hv))]
    exact apply_of_ne w d (h w List.mem_cons_self).symm

/-- A prefix of a run touches only blocks the whole run touches. -/
theorem run_take_apply_of_forall_ne {ws : List (Write β)} {x : Nat}
    (h : ∀ w ∈ ws, w.blk ≠ x) (k : Nat) (d : Disk β) : run (ws.take k) d x = d x :=
  run_apply_of_forall_ne (fun w hw => h w (List.mem_of_mem_take hw)) d

/-- Congruence of runs: writes that read only `R` and never target it give the
same contents, from two disks that agree on `R`, at every block some write
targets. -/
theorem run_congr_of_eqOn {ws : List (Write β)} {R : Set Nat}
    (hread : ∀ w ∈ ws, w.ReadsIn R) (hR : ∀ w ∈ ws, w.blk ∉ R)
    {d d' : Disk β} (h : Set.EqOn d d' R) {x : Nat} (hx : ∃ w ∈ ws, w.blk = x) :
    run ws d x = run ws d' x := by
  induction ws generalizing d d' with
  | nil => obtain ⟨w, hw, _⟩ := hx; cases hw
  | cons w ws ih =>
    simp only [run_cons]
    have hdata : w.data d = w.data d' := hread w List.mem_cons_self d d' h
    have h' : Set.EqOn (w.apply d) (w.apply d') R := by
      intro y hy
      have hy' : y ≠ w.blk := fun he => hR w List.mem_cons_self (he ▸ hy)
      rw [apply_of_ne w d hy', apply_of_ne w d' hy']
      exact h hy
    by_cases hin : ∃ v ∈ ws, v.blk = x
    · exact ih (fun v hv => hread v (List.mem_cons_of_mem _ hv))
        (fun v hv => hR v (List.mem_cons_of_mem _ hv)) h' hin
    · -- `w` is the last write to `x`
      simp only [not_exists, not_and] at hin
      obtain ⟨v, hv, hvx⟩ := hx
      have hwx : w.blk = x := by
        rcases List.mem_cons.mp hv with rfl | hv'
        · exact hvx
        · exact absurd hvx (hin v hv')
      rw [run_apply_of_forall_ne hin, run_apply_of_forall_ne hin, ← hwx,
        apply_self, apply_self, hdata]

end Write

end Xv6.Lib
