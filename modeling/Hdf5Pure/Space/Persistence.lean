import Hdf5Pure.Space.PagedTail
import Hdf5Pure.Space.Persisted

/-!
# Manager sections

The sections that a commit persists, `ManagerSections` and `PageParts` of
`crates/hdf5-pure-space/src/persistence.rs`, with the bound on their number,
`PagedEdit::tail_section_limit` of `paged/mod.rs`. The whole pages of a region are one generic-large
section, and its partial edges stay in their pages in the small manager of their type.
-/

namespace Hdf5Pure.Space

open Checked

/-- The edges of an extent within their pages, and its whole pages. -/
structure PageParts where
  leading : Option Extent
  interior : Option Extent
  trailing : Option Extent
deriving DecidableEq, Repr

namespace PageParts

/-- Splits an extent into at most two partial edges and one aligned interior. -/
def new (extent : Extent) (pageSize : FileSpacePageSize) : PageParts :=
  match extent.alignedInterior pageSize.get with
  | some interior =>
    ⟨Extent.between extent.start interior.start, some interior,
      Extent.between interior.stop extent.stop⟩
  | none =>
    let boundary := min
      ((checkedAdd extent.start (pageSize.get - extent.start % pageSize.get)).getD extent.stop)
      extent.stop
    ⟨Extent.between extent.start boundary, none, Extent.between boundary extent.stop⟩

def count (parts : PageParts) : ℕ :=
  parts.leading.isSome.toNat + parts.interior.isSome.toNat + parts.trailing.isSome.toNat

end PageParts

/-- The free regions assigned to one persistence manager. -/
structure ManagerSections where
  kind : ManagerKind
  sections : List Extent
deriving DecidableEq, Repr

/-- PAGE sections by their class. -/
structure PagedSections where
  metadata : List Extent
  raw : List Extent
  unclassified : List Extent
deriving DecidableEq, Repr

/-- Admitted free extents of one allocator state. -/
inductive AdmittedFreeSnapshot where
  | disabled
  | flat (free : FreeList)
  | paged (pageSize : FileSpacePageSize) (metadata raw unclassified : FreeList)
deriving DecidableEq, Repr

namespace ManagerSections

def flat (sections : List Extent) : List ManagerSections :=
  if sections.isEmpty then [] else [⟨.flat, sections⟩]

/-- Adds the edges of regions to `small` and their interiors to `generic`. -/
def splitTyped (pageSize : FileSpacePageSize) (small generic : List Extent) :
    List Extent → List Extent × List Extent
  | [] => (small, generic)
  | extent :: rest =>
    let parts := PageParts.new extent pageSize
    splitTyped pageSize (small ++ parts.leading.toList ++ parts.trailing.toList)
      (generic ++ parts.interior.toList) rest

/-- Classifies PAGE regions into the managers this writer emits. The assertion is made in debug
builds only. -/
def pagedLists (metadataExtents rawExtents unclassified : List Extent)
    (pageSize : FileSpacePageSize) : Checked (List ManagerSections) := do
  let (metadata, generic) := splitTyped pageSize [] [] metadataExtents
  let (raw, generic) := splitTyped pageSize [] generic rawExtents
  let generic := (generic ++ unclassified).mergeSort fun a b => decide (a.start ≤ b.start)
  assert ((generic.zip generic.tail).all fun w => decide (w.1.start < w.2.start))
    ("one address is free in more than one of the metadata, raw, and unclassified lists, " ++
      "so they have stopped being disjoint")
  .ok ([⟨.pagedSmallMetadata, metadata⟩, ⟨.pagedSmallRaw, raw⟩, ⟨.pagedLargeGeneric, generic⟩].filter
    fun manager => !manager.sections.isEmpty)

def paged (sections : PagedSections) (pageSize : FileSpacePageSize) :
    Checked (List ManagerSections) :=
  pagedLists sections.metadata sections.raw sections.unclassified pageSize

def fromSnapshot : AdmittedFreeSnapshot → Checked (List ManagerSections)
  | .disabled => .ok (flat [])
  | .flat free => .ok (flat free.regions)
  | .paged pageSize metadata raw unclassified =>
    pagedLists metadata.regions raw.regions unclassified.regions pageSize

end ManagerSections

namespace PagedPostFree

def admittedSnapshot (post : PagedPostFree) : AdmittedFreeSnapshot :=
  .paged post.pageSize post.metadata post.raw post.unclassified

end PagedPostFree

def PagedAppend.admittedSnapshot (append : PagedAppend) : AdmittedFreeSnapshot :=
  append.post.admittedSnapshot

namespace PagedEdit

def sections (paged : PagedEdit) : PagedSections :=
  ⟨paged.metadata.regions, paged.raw.regions, paged.unclassified.regions⟩

/-- Adds up section counts within `usize`. -/
def countSections (count : ℕ) : List ℕ → Except FormatError ℕ
  | [] => .ok count
  | pieces :: rest =>
    match checkedAdd count pieces with
    | some count => countSections count rest
    | none => .error (.valueTooLargeForPlatform (min (count + pieces) (2 ^ 64 - 1))
        "PAGE persistence section count")

def limitExtents (paged : PagedEdit) (extents : List Extent) : List Extent :=
  paged.metadata.regions ++ paged.raw.regions ++ paged.dead.regions ++ paged.metaPad ++
    paged.rawPad ++ extents

/-- Bounds the PAGE section count before metadata reservation. -/
def tailSectionLimit (paged : PagedEdit) (extents : List Extent) : Except FormatError ℕ :=
  countSections 0
    ((paged.limitExtents extents).map (fun extent => (PageParts.new extent paged.pageSize).count) ++
      paged.unclassified.regions.map fun _ => 1)

end PagedEdit

end Hdf5Pure.Space
