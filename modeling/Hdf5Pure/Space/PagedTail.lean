import Hdf5Pure.Space.Session

/-!
# Planned PAGE tails

The manager tail of a PAGE commit, `PagedEdit::plan_tail`, `plan_reusable_tail` and `plan_append`
with `PagedAppend::reserve` and `PagedPostFree::release_trailing` of
`crates/hdf5-pure-space/src/paged/mod.rs`, and their wrappers in `session.rs`. A plan reserves the
tail in a copy of the session and only then applies the pending frees.
-/

namespace Hdf5Pure.Space

open Checked

namespace ReservationRequest

def new (size : ℕ) (size_pos : 0 < size) (allocationClass : AllocationClass) : ReservationRequest :=
  ⟨size, allocationClass, allocationClass.pageType, .compound, size_pos⟩

def forBlock (request : ReservationRequest) : ReservationRequest := { request with kind := .block }

end ReservationRequest

/-- A metadata reservation and the PAGE state to publish with it. -/
structure PagedTail where
  allocation : Extent
  post : PagedPostFree
  finalEoa : ℕ
  appended : Bool
  request : ReservationRequest

/-- A PAGE post-free state before an appended reservation has been sized. -/
structure PagedAppend where
  eoa : ℕ
  post : PagedPostFree

def checkPageBoundary (pageSize : FileSpacePageSize) (eoa : ℕ) : Except FormatError Unit :=
  match checkedNextMultipleOf eoa pageSize.get with
  | some _ => .ok ()
  | none => .error (.offsetOverflow eoa pageSize.get)

def checkTrailingReserve (pageSize : FileSpacePageSize) (capacity : ℕ) : Except FormatError Unit :=
  match (checkedMul capacity (trailingReserveTails * 2)).bind
      fun reserve => checkedNextMultipleOf reserve pageSize.get with
  | some _ => .ok ()
  | none => .error (.offsetOverflow capacity (trailingReserveTails * 2))

/-- Releases the trailing whole-page run while retaining manager-tail reserve space. -/
def PagedPostFree.releaseTrailing (post : PagedPostFree) (eoa tailLen : ℕ) :
    Checked (ℕ × PagedPostFree) :=
  let start := FreeList.trailingRunStart
    [post.metadata, post.raw, post.dead, post.unclassified] eoa
  let pageSize := post.pageSize.get
  match checkedNextMultipleOf start pageSize with
  | none => .ok (eoa, post)
  | some cut =>
    if eoa ≤ cut then .ok (eoa, post)
    else match (checkedMul trailingReserveTails tailLen).bind
        fun reserve => checkedNextMultipleOf reserve pageSize with
    | none => .ok (eoa, post)
    | some keep =>
      match checkedMul keep 2 with
      | none => .ok (eoa, post)
      | some releaseMin =>
        if (checkedSub eoa cut).all fun length => decide (length < releaseMin) then .ok (eoa, post)
        else match checkedAdd cut keep with
        | none => .ok (eoa, post)
        | some publishedEoa => do
          let released ← expect (Extent.between publishedEoa eoa)
            "the released range ends at the current end of allocation"
          let metadata ← post.metadata.takeRange released
          let raw ← post.raw.takeRange released
          let dead ← post.dead.takeRange released
          let unclassified ← post.unclassified.takeRange released
          .ok (publishedEoa, ⟨post.pageSize, metadata, raw, dead, unclassified⟩)

def PagedPostFree.trackBetween (post : PagedPostFree) (start stop : ℕ) (freeClass : FreeClass) :
    Checked PagedPostFree :=
  match Extent.between start stop with
  | some extent => post.track extent freeClass
  | none => .ok post

/-- Plans `capacity` bytes at the input end of allocation and tracks the rest of its last page. -/
def PagedAppend.reserve (append : PagedAppend) (capacity : ℕ) :
    Checked (Except FormatError PagedTail) :=
  let pageSize := append.post.pageSize
  match checkTrailingReserve pageSize capacity with
  | .error e => .ok (.error e)
  | .ok () =>
    if hpos : 0 < capacity then
      let request := ReservationRequest.new capacity hpos .metadata
      match request.placeAfter append.eoa none with
      | .error e => .ok (.error e)
      | .ok allocation =>
        match checkedNextMultipleOf allocation.stop pageSize.get with
        | none => .ok (.error (.offsetOverflow allocation.stop pageSize.get))
        | some finalEoa => do
          let post ← append.post.trackBetween allocation.stop finalEoa (.page .metadata)
          .ok (.ok ⟨allocation, post, finalEoa, true, request⟩)
    else .ok (.error (.offsetOverflow append.eoa capacity))

/-- The tail reserved in an append that was planned, `plan_append(..)?.reserve(..).map(Some)`. -/
def reserveAppended (append : Except FormatError PagedAppend) (capacity : ℕ) :
    Checked (Except FormatError (Option PagedTail)) :=
  match append with
  | .error e => .ok (.error e)
  | .ok append => do
    let tail ← append.reserve capacity
    .ok (tail.map some)

namespace PagedEdit

/-- The post-free sections before an append is sized. Trailing bytes that `postFree` gives back stay
as raw space. -/
def planAppend (paged : PagedEdit) (threshold eoa : ℕ) (freed : Returns)
    (oldBlocks : List Extent) : Checked (Except FormatError PagedAppend) :=
  match checkPageBoundary paged.pageSize eoa with
  | .error e => .ok (.error e)
  | .ok () => do
    let (post, releasedEoa) ← paged.postFree threshold eoa freed oldBlocks
    let post ← post.trackBetween releasedEoa eoa (.page .raw)
    .ok (.ok ⟨eoa, post⟩)

/-- A reservation from existing free space, with the state to adopt after publication. -/
def planReusableTail (paged : PagedEdit) (threshold eoa : ℕ) (freed : Returns)
    (oldBlocks : List Extent) (request : ReservationRequest) :
    Checked (Except FormatError (Option PagedTail)) :=
  match checkPageBoundary paged.pageSize eoa with
  | .error e => .ok (.error e)
  | .ok () =>
    match checkTrailingReserve paged.pageSize request.size with
    | .error e => .ok (.error e)
    | .ok () => do
      let (allocation, available) ← paged.allocateRequest request
      match allocation with
      | none => .ok (.ok none)
      | some allocation => do
        let (post, releasedEoa) ← available.postFree threshold eoa freed oldBlocks
        let (finalEoa, post) ← post.releaseTrailing releasedEoa request.size
        .ok (.ok (some ⟨allocation, post, finalEoa, false, request⟩))

/-- Reserves metadata capacity in a copy of the allocation state. -/
def planTail (paged : PagedEdit) (threshold eoa : ℕ) (freed : Returns)
    (oldBlocks : List Extent) (capacity : ℕ) (appended : Bool) :
    Checked (Except FormatError (Option PagedTail)) :=
  match checkPageBoundary paged.pageSize eoa with
  | .error e => .ok (.error e)
  | .ok () =>
    match checkTrailingReserve paged.pageSize capacity with
    | .error e => .ok (.error e)
    | .ok () =>
      if appended then do
        let append ← paged.planAppend threshold eoa freed oldBlocks
        reserveAppended append capacity
      else if hpos : 0 < capacity then
        paged.planReusableTail threshold eoa freed oldBlocks (.new capacity hpos .metadata)
      else .ok (.ok none)

end PagedEdit

namespace SessionSpace

def notPaged : FormatError := .internal "PAGE persistence requires PAGE session space"

def planPagedTail (space : SessionSpace) (eoa : ℕ) (freed : Returns)
    (oldBlocks : List Extent) (capacity : ℕ) (appended : Bool) :
    Checked (Except FormatError (Option PagedTail)) :=
  match space with
  | paged space => space.paged.planTail space.threshold eoa freed oldBlocks capacity appended
  | _ => .ok (.error notPaged)

def planPagedBlockTail (space : SessionSpace) (eoa : ℕ) (freed : Returns)
    (oldBlocks : List Extent) (capacity : ℕ) (capacity_pos : 0 < capacity) :
    Checked (Except FormatError (Option PagedTail)) :=
  match space with
  | paged space =>
    space.paged.planReusableTail space.threshold eoa freed oldBlocks
      (ReservationRequest.new capacity capacity_pos .metadata).forBlock
  | _ => .ok (.error notPaged)

/-- Prepares PAGE post-free sections before an appended reservation is sized. -/
def planPagedAppend (space : SessionSpace) (eoa : ℕ) (freed : Returns)
    (oldBlocks : List Extent) : Checked (Except FormatError PagedAppend) :=
  match space with
  | paged space => space.paged.planAppend space.threshold eoa freed oldBlocks
  | _ => .ok (.error notPaged)

end SessionSpace

end Hdf5Pure.Space
