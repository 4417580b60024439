import Hdf5Pure.Space.FreeList

/-!
# The admission rule of tracked space

`TrackedSpace` of `crates/hdf5-pure-space/src/admission/mod.rs`. The default methods track the
eligible extents and offer the shorter ones again until a pass changes nothing. The flat and the
PAGE lists replace the batch by a sweep and by a worklist.
-/

namespace Hdf5Pure.Space

open Checked

/-- What `release` does with a freed extent. -/
inductive Release where
  | drop
  | merge
  | track
deriving DecidableEq, Repr

/-- Free space that a session tracks. -/
class TrackedSpace (S : Type) (C : outParam Type) where
  /-- The extent merges into tracked space. -/
  merges : S → Extent → Bool
  /-- Tracks the extent as free in the list of its class. -/
  track : S → Extent → C → Checked S

namespace TrackedSpace

variable {S C : Type} [TrackedSpace S C]

/-- Tracks `extent` if it is at least `threshold` bytes long or merges into tracked space. -/
def release (space : S) (threshold : ℕ) (extent : Extent) (freeClass : C) : Checked (Release × S) :=
  let release :=
    if threshold ≤ extent.len then .track
    else if merges space extent then .merge
    else .drop
  if release ≠ .drop then do
    let space ← track space extent freeClass
    .ok (release, space)
  else .ok (release, space)

/-- The decision about an extent that can be tracked. -/
lemma release_eq {space space' : S} {extent : Extent} {freeClass : C}
    (htrack : track space extent freeClass = .ok space') (threshold : ℕ) :
    release space threshold extent freeClass = .ok (
      if threshold ≤ extent.len then (.track, space')
      else if merges space extent then (.merge, space')
      else (.drop, space)) := by
  unfold release
  split_ifs <;> simp_all

def trackEach (space : S) : List (Extent × C) → Checked S
  | [] => .ok space
  | (extent, freeClass) :: rest => do
    let space ← track space extent freeClass
    trackEach space rest

/-- One pass over the pending extents. Returns those that are dropped still. -/
def offerEach (threshold : ℕ) (space : S) : List (Extent × C) → Checked (List (Extent × C) × S)
  | [] => .ok ([], space)
  | (extent, freeClass) :: rest => do
    let (release, space) ← release space threshold extent freeClass
    let (dropped, space) ← offerEach threshold space rest
    .ok (if release = .drop then (extent, freeClass) :: dropped else dropped, space)

/-- Passes until one tracks nothing. A pass that goes on leaves fewer extents, which bounds the
`fuel`. -/
def offerAll (threshold : ℕ) : ℕ → S → List (Extent × C) → Checked (List (Extent × C) × S)
  | 0, _, _ => .error ⟨"more passes than extents"⟩
  | fuel + 1, space, pending => do
    let (dropped, space) ← offerEach threshold space pending
    if dropped.length = pending.length then .ok (dropped, space)
    else offerAll threshold fuel space dropped

/-- Tracks each extent that is at least `threshold` bytes long or merges, and returns the others. -/
def releaseEach (space : S) (threshold : ℕ) (extents : List (Extent × C)) :
    Checked (List (Extent × C) × S) := do
  let (pending, eligible) := extents.partition fun entry => decide (entry.1.len < threshold)
  let space ← trackEach space eligible
  offerAll threshold (pending.length + 1) space pending

end TrackedSpace

instance : TrackedSpace FreeList Unit where
  merges := FreeList.adjoins
  track list extent _ := list.free extent

end Hdf5Pure.Space
