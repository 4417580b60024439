import Mathlib

/-!
# Reachability in multigraphs

A directed graph with named, possibly parallel edges, and what a root reaches in it once some edges
are taken out.
-/

namespace Hdf5Pure

/-- A directed graph: `Edge e a b` says that the edge `e` runs from `a` to `b`. -/
structure Multigraph (V E : Type) where
  Edge : E → V → V → Prop

namespace Multigraph

variable {V E : Type} (g : Multigraph V E)

/-- The vertices `root` reaches along edges outside `removed`. -/
inductive Reaches (root : V) (removed : Set E) : V → Prop
  | root : Reaches root removed root
  | step {a b : V} {e : E} (reached : Reaches root removed a) (edge : g.Edge e a b)
      (kept : e ∉ removed) : Reaches root removed b

/-- At most one edge ends at `b`. -/
def SoleTarget (b : V) : Prop :=
  ∀ ⦃e e' : E⦄ ⦃a a' : V⦄, g.Edge e a b → g.Edge e' a' b → e = e' ∧ a = a'

variable {g} {root a b : V} {removed : Set E} {e : E}

/-- A vertex other than the root is cut off if its sole edge is taken out, or starts at a vertex
that is cut off. -/
lemma not_reaches_of_soleTarget (hsole : g.SoleTarget b) (hroot : b ≠ root)
    (hedge : g.Edge e a b) (hcut : e ∈ removed ∨ ¬ g.Reaches root removed a) :
    ¬ g.Reaches root removed b := by
  intro hreach
  cases hreach with
  | root => exact hroot rfl
  | step hprev hedge' hkept =>
    obtain ⟨rfl, rfl⟩ := hsole hedge hedge'
    exact hcut.elim hkept (fun hnot => hnot hprev)

end Multigraph

end Hdf5Pure
