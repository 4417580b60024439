import Hdf5Pure.Space.PageAdmission

/-!
# PAGE editing sessions

`PagedEdit` of `crates/hdf5-pure-space/src/paged/mod.rs`: the free lists of a session whose file
keeps metadata and raw data on separate pages, the padding its appends leave behind, and the page
type of the tail. Seeding from persisted managers and tail planning have modules of their own.
-/

namespace Hdf5Pure.Space

open Checked

/-- The padding required before a PAGE append. -/
inductive PageTransition where
  | pad (extent : Extent) (trackAs : Option PageType)
  | unchanged
deriving DecidableEq, Repr

/-- Reusable-space state of a paged editing session. -/
structure PagedEdit where
  pageSize : FileSpacePageSize
  metadata : FreeList
  raw : FreeList
  unclassified : FreeList
  dead : FreeList
  last : Option PageType
  metaPad : List Extent
  rawPad : List Extent
deriving DecidableEq, Repr

namespace PagedEdit

def new (pageSize : FileSpacePageSize) : PagedEdit :=
  ⟨pageSize, .new, .new, .new, .new, none, [], []⟩

/-! ## Padding -/

def padTo (paged : PagedEdit) (eoa : ℕ) : Except FormatError PageTransition :=
  let padLen := paged.pageSize.get - eoa % paged.pageSize.get
  match Extent.new eoa padLen with
  | some extent => .ok (.pad extent paged.last)
  | none => .error (.offsetOverflow eoa padLen)

/-- The transition required before an append of `ty` at `eoa`. -/
def planTransition (paged : PagedEdit) (eoa : ℕ) (ty : PageType) : Except FormatError PageTransition :=
  if eoa % paged.pageSize.get = 0 ∨ paged.last = some ty then .ok .unchanged
  else paged.padTo eoa

def recordPadding (paged : PagedEdit) (extent : Extent) : Option PageType → PagedEdit
  | some .metadata => { paged with metaPad := paged.metaPad ++ [extent] }
  | some .raw => { paged with rawPad := paged.rawPad ++ [extent] }
  | none => paged

def recordTransition (paged : PagedEdit) (ty : PageType) (transition : PageTransition) : PagedEdit :=
  let paged := match transition with
    | .pad extent trackAs => paged.recordPadding extent trackAs
    | .unchanged => paged
  { paged with last := some ty }

def pagePadding (paged : PagedEdit) (eoa : ℕ) : Except FormatError (Option PageTransition) :=
  if eoa % paged.pageSize.get = 0 then .ok none
  else (paged.padTo eoa).map some

/-- Records page-boundary padding without changing the tail page type. -/
def recordPagePadding (paged : PagedEdit) : PageTransition → PagedEdit
  | .pad extent trackAs => paged.recordPadding extent trackAs
  | .unchanged => paged

/-! ## Allocation -/

def list (paged : PagedEdit) : PageType → FreeList
  | .metadata => paged.metadata
  | .raw => paged.raw

def withLists (paged : PagedEdit) (ty : PageType) (own other : FreeList) : PagedEdit :=
  match ty with
  | .metadata => { paged with metadata := own, raw := other }
  | .raw => { paged with raw := own, metadata := other }

end PagedEdit

def PageType.other : PageType → PageType
  | .metadata => .raw
  | .raw => .metadata

namespace PagedEdit

/-- Claims whole pages of the other type for `len` bytes of `ty`; the rest of the pages goes to the
own type. -/
def claim (paged : PagedEdit) (own other : FreeList) (len : ℕ) (ty : PageType) :
    Checked (Option Extent × PagedEdit) :=
  match checkedNextMultipleOf len paged.pageSize.get with
  | none => .ok (none, paged.withLists ty own other)
  | some span => do
    let (claimed, other) ← other.allocWholeUnits span paged.pageSize.get
    match claimed with
    | none => .ok (none, paged.withLists ty own other)
    | some claimed =>
      if span = len then .ok (some claimed, paged.withLists ty own other)
      else do
        let allocation ← expect (Extent.new claimed.start len)
          "the allocation is a non-empty prefix of the claimed extent"
        let remainder ← expect (Extent.new allocation.stop (span - len))
          "the remainder is a non-empty suffix of the claimed extent"
        let own ← own.free remainder
        .ok (some allocation, paged.withLists ty own other)

/-- Allocates `len` bytes that may be used for `ty`. -/
def allocate (paged : PagedEdit) (len : ℕ) (ty : PageType) : Checked (Option Extent × PagedEdit) := do
  let (extent, own) ← (paged.list ty).alloc len
  match extent with
  | some extent => .ok (some extent, paged.withLists ty own (paged.list ty.other))
  | none => paged.claim own (paged.list ty.other) len ty

def claimBlock (paged : PagedEdit) (own other : FreeList) (request : ReservationRequest) :
    Checked (Option Extent × PagedEdit) :=
  match checkedNextMultipleOf request.size paged.pageSize.get with
  | none => .ok (none, paged.withLists request.pageType own other)
  | some span => do
    let (claimed, other) ← other.allocWholeUnits span paged.pageSize.get
    match claimed with
    | none => .ok (none, paged.withLists request.pageType own other)
    | some claimed => do
      let allocation ← expect (request.placeAfter claimed.start (some paged.pageSize)).toOption
        "the block fits in the claimed pages"
      match Extent.between allocation.stop claimed.stop with
      | none => .ok (some allocation, paged.withLists request.pageType own other)
      | some remainder => do
        let own ← own.free remainder
        .ok (some allocation, paged.withLists request.pageType own other)

/-- Reserves one complete block under the request's PAGE geometry and page type. -/
def allocateBlock (paged : PagedEdit) (request : ReservationRequest) :
    Checked (Option Extent × PagedEdit) := do
  let (extent, own) ← (paged.list request.pageType).allocBlock request paged.pageSize
  let other := paged.list request.pageType.other
  match extent with
  | some extent => .ok (some extent, paged.withLists request.pageType own other)
  | none => paged.claimBlock own other request

def allocateRequest (paged : PagedEdit) (request : ReservationRequest) :
    Checked (Option Extent × PagedEdit) :=
  if request.isBlock then paged.allocateBlock request
  else paged.allocate request.size request.pageType

def returnAllocation (paged : PagedEdit) (extent : Extent) (ty : PageType) : Checked PagedEdit := do
  let own ← (paged.list ty).free extent
  .ok (paged.withLists ty own (paged.list ty.other))

/-! ## Commits -/

def withPadding (list : FreeList) (padding : List Extent) : Checked FreeList :=
  match padding with
  | [] => .ok list
  | [extent] => list.free extent
  | padding =>
    match orderedReturns (padding.map (·, ())) with
    | .error _ => .error ⟨"allocation padding is disjoint"⟩
    | .ok padding => do
      match ← FreeList.fromSorted (padding.map Prod.fst) with
      | .error _ => .error ⟨"ordered padding is sorted and disjoint"⟩
      | .ok padding => do
        match ← FreeList.fromLists [list, padding] with
        | .error _ => .error ⟨"allocation padding is disjoint from tracked free space"⟩
        | .ok list => .ok list

/-- Promotes complete pages of adjacent metadata, raw, and dead regions to raw space. -/
def promoteWholeFreePages (post : PagedPostFree) : Checked PagedPostFree := do
  match ← FreeList.fromLists [post.metadata, post.raw, post.dead] with
  | .error _ => .error ⟨"PAGE classes have disjoint free extents"⟩
  | .ok runs => do
    match ← FreeList.fromSorted
        (runs.regions.filterMap fun extent => extent.alignedInterior post.pageSize.get) with
    | .error _ => .error ⟨"whole-page interiors are sorted and disjoint"⟩
    | .ok wholePages => do
      let metadata ← post.metadata.takeRanges wholePages
      let raw ← post.raw.takeRanges wholePages
      let dead ← post.dead.takeRanges wholePages
      match ← FreeList.fromLists [raw, wholePages] with
      | .error _ => .error ⟨"retained raw fragments are disjoint from promoted pages"⟩
      | .ok raw => .ok { post with metadata := metadata, raw := raw, dead := dead }

/-- The PAGE free-space state that a commit would publish, with the end of allocation. -/
def postFree (paged : PagedEdit) (threshold eoa : ℕ) (freed : Returns)
    (oldBlocks : List Extent) : Checked (PagedPostFree × ℕ) := do
  let metadata ← withPadding paged.metadata paged.metaPad
  let raw ← withPadding paged.raw paged.rawPad
  let post : PagedPostFree := ⟨paged.pageSize, metadata, raw, paged.dead, paged.unclassified⟩
  let (eoa, post) ← post.releaseAll threshold eoa (freed ++ oldBlocks.map (·, .page .metadata))
  let post ← promoteWholeFreePages post
  .ok (post, eoa)

def adoptPostFree (paged : PagedEdit) (post : PagedPostFree) (appendedMetadata : Bool)
    (appendedTail : Option Extent) : Checked PagedEdit := do
  let metadata ← match appendedTail with
    | some tail => post.metadata.free tail
    | none => .ok post.metadata
  .ok { paged with
    metadata := metadata
    raw := post.raw
    dead := post.dead
    unclassified := post.unclassified
    metaPad := []
    rawPad := []
    last := if appendedMetadata then some .metadata else paged.last }

end PagedEdit

end Hdf5Pure.Space
