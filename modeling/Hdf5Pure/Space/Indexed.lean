import Hdf5Pure.Space.Admission
import Hdf5Pure.Utils.OrdMap

/-!
# Indexed free lists

`IndexedFreeList` of `crates/hdf5-pure-space/src/list/indexed.rs`: a borrowed free list with its
regions by address, by length, by the length of their aligned interior and, from the first block
request on, by their PAGE block capacity. The borrowed list is the field `owner`, which is empty
until `restore` gives the unused regions back.
-/

namespace Hdf5Pure.Space

open Checked

def saturatingAdd (a b : ℕ) : ℕ := min (a + b) (2 ^ 64 - 1)

/-- Saturating operation counts for the indexed paths of a reservation batch. -/
structure ReservationWork where
  indexedExtents : ℕ
  lookups : ℕ
  removedExtents : ℕ
  insertedExtents : ℕ
  restoredExtents : ℕ
deriving DecidableEq, Repr

namespace ReservationWork

def default : ReservationWork := ⟨0, 0, 0, 0, 0⟩

def combine (a b : ReservationWork) : ReservationWork where
  indexedExtents := saturatingAdd a.indexedExtents b.indexedExtents
  lookups := saturatingAdd a.lookups b.lookups
  removedExtents := saturatingAdd a.removedExtents b.removedExtents
  insertedExtents := saturatingAdd a.insertedExtents b.insertedExtents
  restoredExtents := saturatingAdd a.restoredExtents b.restoredExtents

end ReservationWork

abbrev CapacityIndex := OrdMap (ℕ ×ₗ ℕ) Unit

namespace CapacityIndex

/-- The start of the region with the least sufficient capacity, the lowest one of several. -/
def find (index : CapacityIndex) (size : ℕ) : Option ℕ :=
  (index.firstFrom (toLex (size, 0))).map fun entry => (ofLex entry.1).2

def add (index : CapacityIndex) (capacity : Option ℕ) (start : ℕ) : CapacityIndex :=
  match capacity with
  | some capacity => index.insert (toLex (capacity, start)) ()
  | none => index

def drop (index : CapacityIndex) (capacity : Option ℕ) (start : ℕ) : CapacityIndex :=
  match capacity with
  | some capacity => index.remove (toLex (capacity, start))
  | none => index

end CapacityIndex

/-- Single-page capacities and page-aligned suffix lengths by containing extent. -/
structure BlockIndex where
  pageSize : FileSpacePageSize
  small : CapacityIndex
  large : CapacityIndex

namespace BlockIndex

def new (pageSize : FileSpacePageSize) : BlockIndex := ⟨pageSize, .empty, .empty⟩

/-- The start of the region that `size` bytes go to. -/
def find (blocks : BlockIndex) (size : ℕ) : Option ℕ :=
  if size < blocks.pageSize.get then CapacityIndex.find blocks.small size
  else CapacityIndex.find blocks.large size

def insert (blocks : BlockIndex) (extent : Extent) : BlockIndex where
  pageSize := blocks.pageSize
  small := CapacityIndex.add blocks.small (some (extent.blockCapacity blocks.pageSize 1)) extent.start
  large := CapacityIndex.add blocks.large
    (some (extent.blockCapacity blocks.pageSize blocks.pageSize.get)) extent.start

def remove (blocks : BlockIndex) (extent : Extent) : BlockIndex where
  pageSize := blocks.pageSize
  small := CapacityIndex.drop blocks.small (some (extent.blockCapacity blocks.pageSize 1)) extent.start
  large := CapacityIndex.drop blocks.large
    (some (extent.blockCapacity blocks.pageSize blocks.pageSize.get)) extent.start

end BlockIndex

/-- A borrowed free list with address, size, and PAGE placement indexes. -/
structure IndexedFreeList where
  owner : FreeList
  regions : OrdMap ℕ Extent
  sizes : CapacityIndex
  interiors : CapacityIndex
  alignment : Option ℕ+
  blocks : Option BlockIndex
  buffer : List Extent
  totalBytes : ℕ
  work : ReservationWork
  restored : Bool

namespace IndexedFreeList

/-- The length of the whole units inside an extent, where units are configured. -/
def interiorLen (alignment : Option ℕ+) (extent : Extent) : Option ℕ :=
  (alignment.bind fun align => extent.alignedInterior align).map Extent.len

def insert (index : IndexedFreeList) (extent : Extent) : IndexedFreeList :=
  { index with
    blocks := index.blocks.map fun blocks => blocks.insert extent
    regions := index.regions.insert extent.start extent
    sizes := CapacityIndex.add index.sizes (some extent.len) extent.start
    interiors := CapacityIndex.add index.interiors (interiorLen index.alignment extent) extent.start
    work := { index.work with insertedExtents := saturatingAdd index.work.insertedExtents 1 } }

def forget (index : IndexedFreeList) (extent : Extent) (start : ℕ) : IndexedFreeList :=
  { index with
    regions := index.regions.remove start
    blocks := index.blocks.map fun blocks => blocks.remove extent
    sizes := CapacityIndex.drop index.sizes (some extent.len) start
    interiors := CapacityIndex.drop index.interiors (interiorLen index.alignment extent) start
    work := { index.work with removedExtents := saturatingAdd index.work.removedExtents 1 } }

def remove (index : IndexedFreeList) (start : ℕ) : Checked (Extent × IndexedFreeList) := do
  let extent ← expect (index.regions.get? start) "the indexed extent exists"
  .ok (extent, index.forget extent start)

def adopt (index : IndexedFreeList) (extent : Extent) : IndexedFreeList :=
  let index := index.insert extent
  { index with work :=
    { index.work with indexedExtents := saturatingAdd index.work.indexedExtents 1 } }

def drained (totalBytes : ℕ) (alignment : Option ℕ+) : IndexedFreeList where
  owner := .new
  regions := .empty
  sizes := .empty
  interiors := .empty
  alignment := alignment
  blocks := none
  buffer := []
  totalBytes := totalBytes
  work := .default
  restored := false

def new (owner : FreeList) (alignment : Option ℕ+) : IndexedFreeList :=
  owner.regions.foldl adopt (drained owner.totalBytes alignment)

def countLookup (index : IndexedFreeList) : IndexedFreeList :=
  { index with work := { index.work with lookups := saturatingAdd index.work.lookups 1 } }

def insertPart (index : IndexedFreeList) : Option Extent → IndexedFreeList
  | some part => index.insert part
  | none => index

def subtract (index : IndexedFreeList) (allocation : Extent) : Checked IndexedFreeList := do
  let total ← expect (checkedSub index.totalBytes allocation.len)
    "the indexed total includes the selected allocation"
  .ok { index with totalBytes := total }

/-- Inserts the parts of `region` around `allocation` and subtracts it from the total. -/
def retainEdges (index : IndexedFreeList) (region allocation : Extent) : Checked IndexedFreeList :=
  let index := index.insertPart (Extent.between region.start allocation.start)
  let index := index.insertPart (Extent.between allocation.stop region.stop)
  index.subtract allocation

/-- Reserves the low end of the smallest sufficient extent. -/
def allocate (index : IndexedFreeList) (size : ℕ) : Checked (Option Extent × IndexedFreeList) := do
  let index := index.countLookup
  match CapacityIndex.find index.sizes size with
  | none => .ok (none, index)
  | some start => do
    let (region, index) ← index.remove start
    let allocation ← expect (Extent.new region.start size)
      "the allocation fits inside the indexed extent"
    let index := index.insertPart (Extent.between allocation.stop region.stop)
    let index ← index.subtract allocation
    .ok (some allocation, index)

def blockIndex (index : IndexedFreeList) (pageSize : FileSpacePageSize) : BlockIndex :=
  match index.blocks with
  | some blocks => blocks
  | none => index.regions.values.foldl BlockIndex.insert (BlockIndex.new pageSize)

def allocateBlock (index : IndexedFreeList) (request : ReservationRequest)
    (pageSize : FileSpacePageSize) : Checked (Option Extent × IndexedFreeList) := do
  let index := index.countLookup
  let blocks := index.blockIndex pageSize
  let index := { index with blocks := some blocks }
  match blocks.find request.size with
  | none => .ok (none, index)
  | some start =>
    match index.regions.get? start with
    | none => .ok (none, index)
    | some region =>
      match request.placeAfter region.start (some pageSize) with
      | .error _ => .ok (none, index)
      | .ok allocation => do
        let (_, index) ← index.remove start
        let index ← index.retainEdges region allocation
        .ok (some allocation, index)

/-- Reserves whole aligned units from the smallest sufficient aligned interior. -/
def allocateWholeUnits (index : IndexedFreeList) (size : ℕ) :
    Checked (Option Extent × IndexedFreeList) := do
  let index := index.countLookup
  match index.alignment with
  | none => .ok (none, index)
  | some alignment => do
    assert (size % alignment == 0) "assertion `left == right` failed"
    match CapacityIndex.find index.interiors size with
    | none => .ok (none, index)
    | some start => do
      let (region, index) ← index.remove start
      let interior ← expect (region.alignedInterior alignment)
        "the indexed region contains whole units"
      let allocation ← expect (Extent.new interior.start size)
        "the allocation fits inside the indexed interior"
      let index ← index.retainEdges region allocation
      .ok (some allocation, index)

/-- Removes the region before `extent` if they touch. Returns where the union starts. -/
def joinPrevious (index : IndexedFreeList) (extent : Extent) : Checked (ℕ × IndexedFreeList) :=
  match index.regions.lastBelow extent.start with
  | none => .ok (extent.start, index)
  | some (previous, region) => do
    assert (decide (region.stop ≤ extent.start)) "returned allocation overlaps free space"
    if region.stop = extent.start then do
      let (region, index) ← index.remove previous
      .ok (region.start, index)
    else .ok (extent.start, index)

/-- Removes the region at or after `start` if it touches the end of `extent`. Returns where the
union ends. -/
def joinNext (index : IndexedFreeList) (start : ℕ) (extent : Extent) :
    Checked (ℕ × IndexedFreeList) :=
  match index.regions.firstFrom start with
  | none => .ok (extent.stop, index)
  | some (next, region) => do
    assert (decide (extent.stop ≤ region.start)) "returned allocation overlaps free space"
    if extent.stop = region.start then do
      let (region, index) ← index.remove next
      .ok (region.stop, index)
    else .ok (extent.stop, index)

def free (index : IndexedFreeList) (extent : Extent) : Checked IndexedFreeList := do
  let (start, index) ← index.joinPrevious extent
  let (stop, index) ← index.joinNext start extent
  let merged ← expect (Extent.between start stop) "the merged extent is nonempty"
  let index := index.insert merged
  let total ← expect (checkedAdd index.totalBytes extent.len)
    "disjoint free extents fit in the address space"
  .ok { index with totalBytes := total }

def merges (index : IndexedFreeList) (extent : Extent) : Bool :=
  ((index.regions.lastBelow extent.start).any fun entry => entry.2.stop == extent.start)
    || (index.regions.get? extent.stop).isSome

instance : TrackedSpace IndexedFreeList Unit where
  merges := merges
  track index extent _ := index.free extent

/-- Tracks `extent` if it is at least `threshold` bytes long or merges into tracked space. -/
def release (index : IndexedFreeList) (threshold : ℕ) (extent : Extent) :
    Checked (Release × IndexedFreeList) :=
  TrackedSpace.release index threshold extent ()

/-- Returns the unused extents and the cached total to the owner once. -/
def restore (index : IndexedFreeList) : IndexedFreeList :=
  if index.restored then index
  else
    { index with
      owner := ⟨index.buffer ++ index.regions.values, index.totalBytes⟩
      regions := .empty
      sizes := .empty
      interiors := .empty
      blocks := none
      buffer := []
      totalBytes := 0
      work := { index.work with
        restoredExtents := index.regions.values.foldl (fun n _ => saturatingAdd n 1)
          index.work.restoredExtents }
      restored := true }

end IndexedFreeList

end Hdf5Pure.Space
