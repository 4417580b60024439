import Hdf5Pure.Space.Session

/-!
# Space recovered from persisted managers

The free space of a session that opens a file with persisted free-space managers:
`SessionSpace::from_strategy` and `SessionSpace::from_persisted` of
`crates/hdf5-pure-space/src/session.rs`, `PagedEdit::from_persisted` of `paged/mod.rs` and the manager
kinds of `persistence.rs`.
-/

namespace Hdf5Pure.Space

open Checked

inductive FileSpaceStrategy where
  | fsmAggr
  | page
  | aggr
  | none
deriving DecidableEq, Repr

/-- What a persisted manager tracks. -/
inductive ManagerKind where
  | flat
  | pagedLargeGeneric
  | pagedSmallMetadata
  | pagedSmallRaw
deriving DecidableEq, Repr

namespace PagedEdit

/-- The parts of a persisted extent with the page type it establishes, in address order. The whole
pages of a generic-large section are raw, its edges and the sections of other managers are not
classified. -/
def persistedParts (pageSize : FileSpacePageSize) (kind : Option ManagerKind) (extent : Extent) :
    List (Extent × Option PageType) :=
  match kind with
  | some .pagedSmallMetadata => [(extent, some .metadata)]
  | some .pagedSmallRaw => [(extent, some .raw)]
  | some .pagedLargeGeneric =>
    match extent.alignedInterior pageSize.get with
    | .none => [(extent, .none)]
    | some pages =>
      ((Extent.between extent.start pages.start).map (·, .none)).toList ++
        [(pages, some .raw)] ++ ((Extent.between pages.stop extent.stop).map (·, .none)).toList
  | some .flat | .none => [(extent, .none)]

def sectionsError (previous : Option Extent) : List Extent → Option FreeListError
  | [] => none
  | extent :: rest => (FreeList.orderError previous extent).or (sectionsError (some extent) rest)

def partsOf (ty : Option PageType) (parts : List (Extent × Option PageType)) : List Extent :=
  parts.filterMap fun part => if part.2 = ty then some part.1 else none

/-- Promotes every page that the seeded lists show to be wholly empty. -/
def finishSeed (paged : PagedEdit) : Checked PagedEdit := do
  let post ← promoteWholeFreePages
    ⟨paged.pageSize, paged.metadata, paged.raw, paged.dead, paged.unclassified⟩
  .ok { paged with metadata := post.metadata, raw := post.raw, dead := post.dead }

def fromPersisted (pageSize : FileSpacePageSize) (sections : List (Option ManagerKind × Extent)) :
    Checked (Except FreeListError PagedEdit) :=
  match sectionsError none (sections.map Prod.snd) with
  | some error => .ok (.error error)
  | none => do
    let parts := sections.flatMap fun s => persistedParts pageSize s.1 s.2
    match ← FreeList.fromSorted (partsOf (some .metadata) parts) with
    | .error error => .ok (.error error)
    | .ok metadata =>
      match ← FreeList.fromSorted (partsOf (some .raw) parts) with
      | .error error => .ok (.error error)
      | .ok raw =>
        match ← FreeList.fromSorted (partsOf .none parts) with
        | .error error => .ok (.error error)
        | .ok unclassified => do
          let paged ← finishSeed
            { new pageSize with metadata := metadata, raw := raw, unclassified := unclassified }
          .ok (.ok paged)

end PagedEdit

namespace SessionSpace

def fromStrategy (strategy : Option FileSpaceStrategy) (threshold : ℕ)
    (pageSize : FileSpacePageSize) : SessionSpace :=
  match strategy with
  | some .fsmAggr => flat ⟨.new, threshold⟩
  | some .page => paged ⟨.new pageSize, threshold⟩
  | some .aggr | some .none | Option.none => disabled

def fromPersisted (strategy : Option FileSpaceStrategy) (threshold : ℕ)
    (pageSize : FileSpacePageSize) (sections : List (Option ManagerKind × Extent)) :
    Checked (Except FreeListError SessionSpace) :=
  match strategy with
  | some .fsmAggr => do
    let result ← FreeList.fromSorted (sections.map Prod.snd)
    .ok (result.map fun free => flat ⟨free, threshold⟩)
  | some .page => do
    let result ← PagedEdit.fromPersisted pageSize sections
    .ok (result.map fun edit => paged ⟨edit, threshold⟩)
  | some .aggr | some .none | Option.none => .ok (.ok disabled)

def reusableSections : SessionSpace → List Extent
  | disabled => []
  | flat space => space.free.regions
  | paged space => space.paged.metadata.regions ++ space.paged.raw.regions

end SessionSpace

end Hdf5Pure.Space
