import Hdf5Pure.Space.TrackedSpace

/-!
# Threshold admission of returned extents

`admission/mod.rs`, `admission/batch.rs` and `list/admission/mod.rs` of
`crates/hdf5-pure-space/src`. An extent of at least the threshold joins the free list, and a
shorter one only where it merges into tracked space. A batch is decided in one sweep over the
tracked and the returned extents: a connected run is admitted when it holds tracked space or an
individually eligible return.
-/

namespace Hdf5Pure.Space

open Checked

/-! ## Ordered returns -/

section OrderedReturns

variable {C : Type}

def startsAscend : List (Extent × C) → Bool
  | a :: b :: rest => decide (a.1.start ≤ b.1.start) && startsAscend (b :: rest)
  | _ => true

def firstOverlap : List (Extent × C) → Option FreeListError
  | a :: b :: rest =>
    if b.1.start < a.1.stop then some (.overlap a.1 b.1) else firstOverlap (b :: rest)
  | _ => none

/-- Allocations in address order, `OrderedReturns::new`. Input already in order is not sorted. -/
def orderedReturns (entries : List (Extent × C)) : Except FreeListError (List (Extent × C)) :=
  let entries :=
    if startsAscend entries then entries
    else entries.mergeSort fun a b => decide (a.1.start ≤ b.1.start)
  match firstOverlap entries with
  | some error => .error error
  | none => .ok entries

end OrderedReturns

/-! ## The flat sweep -/

/-- A contiguous run under examination and the completed admission results. -/
structure FlatAdmission where
  admitted : List Extent
  dropped : List Extent
  run : Option Extent
  seeded : Bool
  pendingStart : ℕ
deriving DecidableEq, Repr

namespace FlatAdmission

def default : FlatAdmission := ⟨[], [], none, false, 0⟩

/-- Completes the current run, retaining original returns for a seedless run. -/
def finishRun (a : FlatAdmission) : FlatAdmission :=
  let (admitted, dropped) :=
    match a.run with
    | some run =>
      if a.seeded then (a.admitted ++ [run], a.dropped.take a.pendingStart)
      else (a.admitted, a.dropped)
    | none => (a.admitted, a.dropped)
  ⟨admitted, dropped, none, false, dropped.length⟩

def extendRun (run : Option Extent) (extent : Extent) : Checked Extent :=
  match run with
  | some run => do
    assert (run.stop == extent.start) "returned space overlaps free space"
    expect (Extent.between run.start extent.stop) "adjacent extents have a union"
  | none => .ok extent

/-- Extends the current run, completing it before a gap. -/
def push (a : FlatAdmission) (extent : Extent) (seed returned : Bool) : Checked FlatAdmission := do
  let a := if a.run.any fun run => decide (run.stop < extent.start) then a.finishRun else a
  let run ← extendRun a.run extent
  let (dropped, seeded) :=
    if seed && !a.seeded then (a.dropped.take a.pendingStart, true) else (a.dropped, a.seeded)
  let dropped := if returned && !seeded then dropped ++ [extent] else dropped
  .ok ⟨a.admitted, dropped, some run, seeded, a.pendingStart⟩

/-- Pushes tracked and returned extents; the flag of an item says that it was returned. -/
def sweep (threshold : ℕ) (a : FlatAdmission) : List (Extent × Bool) → Checked FlatAdmission
  | [] => .ok a
  | (extent, returned) :: rest => do
    let a ← a.push extent (!returned || decide (threshold ≤ extent.len)) returned
    sweep threshold a rest

end FlatAdmission

namespace FreeList

/-- Tracks `extent` if it is at least `threshold` bytes long or adjoins a region. -/
def release (list : FreeList) (threshold : ℕ) (extent : Extent) : Checked (Release × FreeList) :=
  TrackedSpace.release list threshold extent ()

def sweepOrder (tracked returned : List Extent) : List (Extent × Bool) :=
  List.merge (tracked.map (·, false)) (returned.map (·, true))
    fun a b => decide (a.1.start < b.1.start)

/-- Admits connected runs and rebuilds the list in bulk. Returns the dropped extents. -/
def releaseBatch (list : FreeList) (threshold : ℕ) (extents : List Extent) :
    Checked (List Extent × FreeList) :=
  match extents with
  | [] => .ok ([], list)
  | [first] => do
    let (release, list) ← list.release threshold first
    .ok (if release = .drop then [first] else [], list)
  | extents =>
    match orderedReturns (extents.map (·, ())) with
    | .error _ => .error ⟨"returned allocations do not overlap"⟩
    | .ok returned => do
      let admission ← FlatAdmission.default.sweep threshold
        (sweepOrder list.regions (returned.map Prod.fst))
      let admission := admission.finishRun
      match ← fromSorted admission.admitted with
      | .error _ => .error ⟨"admitted runs are sorted and disjoint"⟩
      | .ok list => .ok (admission.dropped, list)

/-- Lowers the end of allocation by a dropped extent that ends it. -/
def shrinkBy (eoa : ℕ) (extent : Extent) : ℕ := if extent.stop = eoa then extent.start else eoa

/-- Records what admission accepts of `extents` and returns `eoa` less the dropped extents that
end it. -/
def releaseAll (list : FreeList) (threshold eoa : ℕ) (extents : List Extent) :
    Checked (ℕ × FreeList) := do
  let (dropped, list) ← list.releaseBatch threshold extents
  let dropped := dropped.mergeSort fun a b => decide (b.start ≤ a.start)
  .ok (dropped.foldl shrinkBy eoa, list)

end FreeList

end Hdf5Pure.Space
