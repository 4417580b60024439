import Hdf5Pure.Space.Request
import Hdf5Pure.Utils.Iter

/-!
# Free lists

`FreeList` of `crates/hdf5-pure-space/src/list/mod.rs`: a sorted, coalesced list of free regions
with a cached byte total. Every `expect`, `assert!` and debug assertion of the source is a
`Checked` stage with the source's message, so the model is that of a debug build. The loops
that splice the vector in place are written over the list of regions that remain to be visited.
-/

namespace Hdf5Pure.Space

open Checked

/-- A sorted, coalesced set of free regions. -/
@[ext] structure FreeList where
  regions : List Extent
  totalBytes : ℕ
deriving DecidableEq, Repr

/-- The consecutive input extents that failed construction. -/
inductive FreeListError where
  | overlap (previous next : Extent)
  | unsorted (previous next : Extent)
deriving DecidableEq, Repr

def trailingReserveTails : ℕ := 4

namespace FreeList

def new : FreeList := ⟨[], 0⟩

/-! ## Construction -/

def orderError (previous : Option Extent) (extent : Extent) : Option FreeListError :=
  match previous with
  | none => none
  | some previous =>
    if extent.start < previous.start then some (.unsorted previous extent)
    else if extent.start < previous.stop then some (.overlap previous extent)
    else none

/-- Appends an extent at or after the end of the list, coalescing it with the last region if they
touch. -/
def pushSorted (list : FreeList) (extent : Extent) : Checked FreeList := do
  let total ← expect (checkedAdd list.totalBytes extent.len)
    "disjoint extents fit in the address space"
  match list.regions.getLast? with
  | some last =>
    if last.stop = extent.start then
      let union ← expect (Extent.between last.start extent.stop)
        "adjacent extents have a checked union"
      .ok ⟨list.regions.dropLast ++ [union], total⟩
    else .ok ⟨list.regions ++ [extent], total⟩
  | none => .ok ⟨list.regions ++ [extent], total⟩

def fromSortedLoop (list : FreeList) (previous : Option Extent) :
    List Extent → Checked (Except FreeListError FreeList)
  | [] => .ok (.ok list)
  | extent :: rest =>
    match orderError previous extent with
    | some error => .ok (.error error)
    | none => do
      let list ← list.pushSorted extent
      fromSortedLoop list (some extent) rest

/-- A list from disjoint extents in ascending order, coalescing adjacent ones. -/
def fromSorted (extents : List Extent) : Checked (Except FreeListError FreeList) :=
  fromSortedLoop new none extents

def lowestHead (lists : List (List Extent)) : Option (ℕ × ℕ) :=
  minByKey Prod.snd
    (lists.zipIdx.filterMap fun (list, index) => list.head?.map fun extent => (index, extent.start))

def mergeNext (lists : List (List Extent)) : Option (Extent × List (List Extent)) := do
  let (index, _) ← lowestHead lists
  let list ← lists[index]?
  let extent ← list.head?
  some (extent, lists.set index list.tail)

/-- The extents of several lists in ascending order of their starts; `fuel` bounds their number. -/
def mergeExtents : ℕ → List (List Extent) → List Extent
  | 0, _ => []
  | fuel + 1, lists =>
    match mergeNext lists with
    | none => []
    | some (extent, lists) => extent :: mergeExtents fuel lists

def fromLists (lists : List FreeList) : Checked (Except FreeListError FreeList) :=
  let regions := lists.map FreeList.regions
  fromSorted (mergeExtents (regions.map List.length).sum regions)

/-! ## Recording free extents -/

/-- Folds the regions that touch or overlap `[mergedStart, mergedEnd)` into it, and subtracts their
lengths from the total. -/
def mergeRun (extent : Extent) (mergedStart mergedEnd total : ℕ) :
    List Extent → Checked (ℕ × ℕ × ℕ × List Extent)
  | [] => .ok (mergedStart, mergedEnd, total, [])
  | region :: rest =>
    if region.start ≤ mergedEnd then do
      assert (extent.stop ≤ region.start || region.stop ≤ extent.start)
        "double-free: the extent overlaps a free region"
      let total ← expect (checkedSub total region.len)
        "merged regions are included in the cached total"
      mergeRun extent (min mergedStart region.start) (max mergedEnd region.stop) total rest
    else .ok (mergedStart, mergedEnd, total, region :: rest)

/-- Records `extent` as free, merging it with the regions it touches. -/
def free (list : FreeList) (extent : Extent) : Checked FreeList := do
  let before := list.regions.takeWhile fun region => region.stop < extent.start
  let (start, stop, total, after) ← mergeRun extent extent.start extent.stop list.totalBytes
    (list.regions.dropWhile fun region => region.stop < extent.start)
  let merged ← expect (Extent.between start stop)
    "a merged extent contains the newly freed extent"
  let total ← expect (checkedAdd total merged.len)
    "canonical free regions fit in the address space"
  .ok ⟨before ++ merged :: after, total⟩

/-! ## Allocation -/

def subtractBytes (total length : ℕ) : Checked ℕ :=
  expect (checkedSub total length) "removed bytes are included in the cached total"

/-- One iteration of the best-fit scan: a sufficient part replaces the best one so far if it is
smaller. -/
def bestFitStep (candidate : Extent → Option Extent) (len : ℕ) (best : Option (ℕ × Extent))
    (item : Extent × ℕ) : Option (ℕ × Extent) :=
  match candidate item.1 with
  | some part =>
    if len ≤ part.len ∧ best.all (fun best => part.len < best.2.len) then some (item.2, part)
    else best
  | none => best

/-- The best-fit scan: the position of the first region whose `candidate` part is smallest among
those of at least `len` bytes, with that part. -/
def bestFit (candidate : Extent → Option Extent) (len : ℕ) (regions : List Extent) :
    Option (ℕ × Extent) :=
  regions.zipIdx.foldl (bestFitStep candidate len) none

/-- Reserves the low end of the smallest region of at least `len` bytes. -/
def alloc (list : FreeList) (len : ℕ) : Checked (Option Extent × FreeList) :=
  if len = 0 then .ok (none, list)
  else match bestFit some len list.regions with
  | none => .ok (none, list)
  | some (i, region) => do
    let allocation ← expect (Extent.new region.start len)
      "a non-empty allocation fits inside the selected extent"
    let regions ←
      if allocation.stop = region.stop then .ok (list.regions.eraseIdx i)
      else do
        let remainder ← expect (Extent.between allocation.stop region.stop)
          "the remainder is a non-empty suffix of the selected extent"
        .ok (list.regions.set i remainder)
    let total ← subtractBytes list.totalBytes len
    .ok (some allocation, ⟨regions, total⟩)

/-- The parts of `region` below and above `extent`, which overlaps it. -/
def remainders (region extent : Extent) (whole : String) : Checked (List Extent) := do
  let lower ←
    if region.start < extent.start then do
      let part ← expect (Extent.between region.start extent.start)
        ("the lower remainder is non-empty and inside the " ++ whole)
      .ok [part]
    else .ok []
  let upper ←
    if extent.stop < region.stop then do
      let part ← expect (Extent.between extent.stop region.stop)
        ("the upper remainder is non-empty and inside the " ++ whole)
      .ok [part]
    else .ok []
  .ok (lower ++ upper)

/-- Reserves `len` bytes of whole `align`-sized units inside one region. -/
def allocWholeUnits (list : FreeList) (len align : ℕ) : Checked (Option Extent × FreeList) :=
  if len = 0 ∨ align = 0 then .ok (none, list)
  else do
    assert (len % align == 0) "alloc_whole_units takes a whole number of units"
    match bestFit (fun region => region.alignedInterior align) len list.regions with
    | none => .ok (none, list)
    | some (i, interior) => do
      let region ← expect list.regions[i]? "index out of bounds"
      let allocation ← expect (Extent.new interior.start len)
        "a non-empty allocation fits inside the aligned interior"
      let replacement ← remainders region allocation "selected extent"
      let total ← subtractBytes list.totalBytes len
      .ok (some allocation, ⟨list.regions.take i ++ (replacement ++ list.regions.drop (i + 1)), total⟩)

/-! ## Removing ranges -/

def takeRangeLoop (extent : Extent) (out : List Extent) (total : ℕ) :
    List Extent → Checked (List Extent × ℕ)
  | [] => .ok (out, total)
  | region :: rest =>
    match region.intersection extent with
    | none => takeRangeLoop extent (out ++ [region]) total rest
    | some overlap => do
      let total ← subtractBytes total overlap.len
      let parts ← remainders region extent "free extent"
      takeRangeLoop extent (out ++ parts) total rest

/-- Removes whatever part of `extent` the list holds. -/
def takeRange (list : FreeList) (extent : Extent) : Checked FreeList := do
  let (regions, total) ← takeRangeLoop extent [] list.totalBytes list.regions
  .ok ⟨regions, total⟩

def blockFit (request : ReservationRequest) (pageSize : FileSpacePageSize) (region : Extent) :
    Option (ℕ × Extent) :=
  let capacity := region.blockCapacity pageSize request.size
  if capacity < request.size then none
  else match request.placeAfter region.start (some pageSize) with
    | .ok allocation => some (capacity, allocation)
    | .error _ => none

def allocBlock (list : FreeList) (request : ReservationRequest) (pageSize : FileSpacePageSize) :
    Checked (Option Extent × FreeList) :=
  match minByKey (fun fit : ℕ × Extent => toLex (fit.1, fit.2.start))
    (list.regions.filterMap (blockFit request pageSize)) with
  | none => .ok (none, list)
  | some (_, allocation) => do
    let list ← list.takeRange allocation
    .ok (some allocation, list)

/-- Reserves the first `len` bytes of the smallest region whose allocation ends at or below
`limit`. -/
def allocBelow (list : FreeList) (len limit : ℕ) : Checked (Option Extent × FreeList) :=
  let fits := list.regions.filter fun extent =>
    decide (len ≤ extent.len) && (checkedAdd extent.start len).any fun stop => decide (stop ≤ limit)
  match minByKey Extent.len fits with
  | none => .ok (none, list)
  | some extent =>
    match Extent.new extent.start len with
    | none => .ok (none, list)
    | some allocation => do
      let list ← list.takeRange allocation
      .ok (some allocation, list)

/-- Emits the parts of `region` between the removals from `start` on, and returns where the last
ends and the removals that may reach later regions. -/
def takeFromRegion (region : Extent) (start : ℕ) (out : List Extent) (total : ℕ) :
    List Extent → Checked (ℕ × List Extent × ℕ × List Extent)
  | [] => .ok (start, out, total, [])
  | range :: removed =>
    if region.stop ≤ range.start then .ok (start, out, total, range :: removed)
    else do
      let out := out ++ (Extent.between start range.start).toList
      let stop := min range.stop region.stop
      let overlap ← expect (Extent.between (max start range.start) stop)
        "the current removal intersects the current region"
      let total ← subtractBytes total overlap.len
      if region.stop ≤ range.stop then .ok (stop, out, total, range :: removed)
      else takeFromRegion region stop out total removed

def takeRangesLoop (out : List Extent) (total : ℕ) (removed : List Extent) :
    List Extent → Checked (List Extent × ℕ)
  | [] => .ok (out, total)
  | region :: rest => do
    let removed := removed.dropWhile fun range => range.stop ≤ region.start
    let (start, out, total, removed) ← takeFromRegion region region.start out total removed
    takeRangesLoop (out ++ (Extent.between start region.stop).toList) total removed rest

/-- Removes the bytes covered by `ranges`. -/
def takeRanges (list ranges : FreeList) : Checked FreeList :=
  if list.regions.isEmpty || ranges.regions.isEmpty then .ok list
  else do
    let (regions, total) ← takeRangesLoop [] list.totalBytes ranges.regions list.regions
    .ok ⟨regions, total⟩

/-! ## Intersection -/

/-- The overlaps of `left` with the ranges that meet it, and the ranges that may reach later
regions. -/
def intersectRegion (left : Extent) (out : List Extent) : List Extent → List Extent × List Extent
  | [] => (out, [])
  | range :: right =>
    if left.stop ≤ range.start then (out, range :: right)
    else
      let out := out ++ (left.intersection range).toList
      if left.stop ≤ range.stop then (out, range :: right)
      else intersectRegion left out right

def intersectionLoop (out right : List Extent) : List Extent → List Extent
  | [] => out
  | left :: rest =>
    let right := right.dropWhile fun range => range.stop ≤ left.start
    let (out, right) := intersectRegion left out right
    intersectionLoop out right rest

def intersection (list other : FreeList) : Checked FreeList := do
  match ← fromSorted (intersectionLoop [] other.regions list.regions) with
  | .ok list => .ok list
  | .error _ => .error ⟨"canonical intersections are sorted and disjoint"⟩

/-! ## The end of allocation -/

/-- Removes the region that ends at `eof` and returns its start. -/
def takeTrailing (list : FreeList) (eof : ℕ) : Checked (Option ℕ × FreeList) :=
  match list.regions.getLast? with
  | some last =>
    if last.stop = eof then do
      let total ← subtractBytes list.totalBytes last.len
      .ok (some last.start, ⟨list.regions.dropLast, total⟩)
    else .ok (none, list)
  | none => .ok (none, list)

/-- Walks regions in descending order while they reach the run that starts at `start`. -/
def runStart (start : ℕ) : List Extent → ℕ
  | [] => start
  | extent :: rest => if extent.stop < start then start else runStart (min start extent.start) rest

/-- The lowest address of the run of free space that reaches `eof` across several lists. -/
def trailingRunStart (lists : List FreeList) (eof : ℕ) : ℕ :=
  let all := (lists.flatMap FreeList.regions).mergeSort fun a b => decide (a.start ≤ b.start)
  runStart eof all.reverse

/-- Removes a suffix of the free run that reaches `eoa` and returns the new end of allocation. -/
def releaseTrailingRun (list : FreeList) (eoa tailLen : ℕ) : Checked (ℕ × FreeList) :=
  let start := trailingRunStart [list] eoa
  match checkedMul trailingReserveTails tailLen with
  | none => .ok (eoa, list)
  | some keep =>
    match checkedMul keep 2 with
    | none => .ok (eoa, list)
    | some releaseMin =>
      if (checkedSub eoa start).all fun length => decide (length < releaseMin) then .ok (eoa, list)
      else match checkedAdd start keep with
      | none => .ok (eoa, list)
      | some cut =>
        match Extent.between cut eoa with
        | none => .ok (eoa, list)
        | some released => do
          let list ← list.takeRange released
          .ok (cut, list)

/-- A region adjoins `extent`: the outcome of the source's two binary searches of the sorted
regions. -/
def adjoins (list : FreeList) (extent : Extent) : Bool :=
  list.regions.any (fun region => region.stop == extent.start)
    || list.regions.any (fun region => region.start == extent.stop)

end FreeList

end Hdf5Pure.Space
