import Mathlib.Logic.Relation

/-!
# Forests given by parent maps

A parent map `par : ι → Option ι` links each node to its parent, `none` at a
root or an empty node. `Ancestor par a b` says `b` is reached from `a` by one
or more parent links, and `Acyclic par` that no node is its own ancestor.

A table of parent pointers changes in three ways, one lemma each: links are
dropped (`Acyclic.of_sub`), links are redirected to a root
(`Acyclic.redirect`), and a node nobody points to gets a parent
(`Acyclic.addLeaf`). A cycle after a redirection would have to leave the
root, and a cycle after attaching a leaf would have to enter the leaf; neither
has the link it needs.
-/

namespace Xv6.Lib

variable {ι : Type}

/-- `b` is reached from `a` by one or more parent links. -/
def Ancestor (par : ι → Option ι) : ι → ι → Prop :=
  Relation.TransGen fun a b => par a = some b

/-- No node is its own ancestor. -/
def Acyclic (par : ι → Option ι) : Prop := ∀ a, ¬ Ancestor par a a

variable {par par' : ι → Option ι}

/-- The first link of a path. -/
theorem Ancestor.head {a b : ι} (h : Ancestor par a b) : ∃ m, par a = some m := by
  obtain ⟨m, hm, -⟩ := Relation.TransGen.head'_iff.mp h
  exact ⟨m, hm⟩

/-- The last link of a path. -/
theorem Ancestor.last {a b : ι} (h : Ancestor par a b) : ∃ m, par m = some b := by
  cases h with
  | single hab => exact ⟨a, hab⟩
  | tail _ hmb => exact ⟨_, hmb⟩

/-- A root has no ancestor. -/
theorem not_ancestor_of_root {r b : ι} (hr : par r = none) : ¬ Ancestor par r b := by
  intro h
  obtain ⟨m, hm⟩ := h.head
  rw [hr] at hm
  cases hm

/-- Dropping links keeps the map acyclic. -/
theorem Acyclic.of_sub (h : Acyclic par) (hsub : ∀ a b, par' a = some b → par a = some b) :
    Acyclic par' :=
  fun a hc => h a (Relation.TransGen.mono hsub a a hc)

/-- Links redirected to a root `r` keep the map acyclic: a path either uses old
links only or ends at `r`, and a cycle through `r` would have to leave it. -/
theorem Acyclic.redirect (h : Acyclic par) {r : ι} (hr : par' r = none)
    (hsub : ∀ a b, par' a = some b → par a = some b ∨ b = r) : Acyclic par' := by
  have hpath : ∀ a b, Ancestor par' a b → Ancestor par a b ∨ b = r := by
    intro a b hab
    induction hab with
    | single hab =>
      rcases hsub _ _ hab with hold | hb
      · exact .inl (.single hold)
      · exact .inr hb
    | @tail m b _ hmb ih =>
      rcases ih with ham | rfl
      · rcases hsub _ _ hmb with hold | hb
        · exact .inl (.tail ham hold)
        · exact .inr hb
      · -- the path reached the root and then left it
        rw [hr] at hmb
        cases hmb
  intro a hc
  rcases hpath a a hc with hold | rfl
  · exact h a hold
  · exact not_ancestor_of_root hr hc

/-- A new parent for a node `c` that nobody points to keeps the map acyclic: a
path either uses old links only or starts at `c`, and a cycle through `c`
would have to enter it. -/
theorem Acyclic.addLeaf (h : Acyclic par) {c : ι} (hleaf : ∀ a, par' a ≠ some c)
    (hsub : ∀ a b, par' a = some b → par a = some b ∨ a = c) : Acyclic par' := by
  have hpath : ∀ a b, Ancestor par' a b → Ancestor par a b ∨ a = c := by
    intro a b hab
    induction hab with
    | single hab =>
      rcases hsub _ _ hab with hold | ha
      · exact .inl (.single hold)
      · exact .inr ha
    | @tail m b ham hmb ih =>
      rcases hsub _ _ hmb with hold | rfl
      · rcases ih with ham' | ha
        · exact .inl (.tail ham' hold)
        · exact .inr ha
      · -- the path entered `c` on its way
        obtain ⟨z, hz⟩ := Ancestor.last ham
        exact absurd hz (hleaf z)
  intro a hc
  rcases hpath a a hc with hold | rfl
  · exact h a hold
  · obtain ⟨z, hz⟩ := hc.last
    exact hleaf z hz

end Xv6.Lib
