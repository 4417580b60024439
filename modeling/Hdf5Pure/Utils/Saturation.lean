import Mathlib

/-!
# Least closed sets

A set of candidates is admitted by a monotone rule that depends on what is admitted already.
Whatever admits one eligible candidate at a time until none is left admits the least closed set.
-/

namespace Hdf5Pure.Saturation

variable {ι : Type*} {candidates A B : Set ι} {rule : Set ι → ι → Prop} {a : ι}

/-- Every candidate that the rule accepts is admitted. -/
def Closed (candidates : Set ι) (rule : Set ι → ι → Prop) (A : Set ι) : Prop :=
  ∀ a ∈ candidates, rule A a → a ∈ A

/-- The rule leaves no choice about the members: every closed set has them. -/
def Forced (candidates : Set ι) (rule : Set ι → ι → Prop) (A : Set ι) : Prop :=
  ∀ B, Closed candidates rule B → A ⊆ B

/-- The least closed set. -/
structure Saturated (candidates : Set ι) (rule : Set ι → ι → Prop) (A : Set ι) : Prop where
  closed : Closed candidates rule A
  forced : Forced candidates rule A

lemma forced_empty : Forced candidates rule ∅ := fun _ _ => Set.empty_subset _

lemma Forced.insert (h : Forced candidates rule A) (hmono : ∀ B, A ⊆ B → rule A a → rule B a)
    (ha : a ∈ candidates) (hrule : rule A a) : Forced candidates rule (insert a A) := by
  intro B hB
  have hsub := h B hB
  exact Set.insert_subset (hB a ha (hmono B hsub hrule)) hsub

/-- What is admitted does not depend on the procedure. -/
lemma Saturated.unique (hA : Saturated candidates rule A) (hB : Saturated candidates rule B) :
    A = B :=
  Set.Subset.antisymm (hA.forced B hB.closed) (hB.forced A hA.closed)

end Hdf5Pure.Saturation
