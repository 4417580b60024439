import Hdf5Pure.Space.Indexed
import Hdf5Pure.Space.Paged

/-!
# Session space and reservation batches

`SessionSpace` of `crates/hdf5-pure-space/src/session.rs` and `ReservationBatch` of
`reservation.rs`. A batch borrows the free lists of a session: its model holds the indexes while
it runs, and `owned` is what the session owns again once the borrow ends.
-/

namespace Hdf5Pure.Space

open Checked

/-- Reusable-space state for an unpaged manager strategy. -/
structure FlatSpace where
  free : FreeList
  threshold : ℕ
deriving DecidableEq, Repr

/-- Reusable-space state for the PAGE strategy. -/
structure PagedSpace where
  paged : PagedEdit
  threshold : ℕ
deriving DecidableEq, Repr

/-- The reusable-space strategy active for one editing session. -/
inductive SessionSpace where
  | disabled
  | flat (space : FlatSpace)
  | paged (space : PagedSpace)
deriving DecidableEq, Repr

namespace SessionSpace

def isEnabled : SessionSpace → Bool
  | disabled => false
  | _ => true

def isPaged : SessionSpace → Bool
  | paged _ => true
  | _ => false

def pageSize : SessionSpace → Option FileSpacePageSize
  | paged space => some space.paged.pageSize
  | _ => none

def allocateWithPageType (space : SessionSpace) (len : ℕ) (pageType : PageType) :
    Checked (Option Extent × SessionSpace) :=
  match space with
  | disabled => .ok (none, disabled)
  | flat space => do
    let (extent, free) ← space.free.alloc len
    .ok (extent, flat { space with free := free })
  | paged space => do
    let (extent, edit) ← space.paged.allocate len pageType
    .ok (extent, paged { space with paged := edit })

/-- Reserves reusable space with complete-block geometry when requested under PAGE. -/
def allocateRequest (space : SessionSpace) (request : ReservationRequest) :
    Checked (Option Extent × SessionSpace) :=
  match space with
  | paged space =>
    if request.isBlock then do
      let (extent, edit) ← space.paged.allocateBlock request
      .ok (extent, paged { space with paged := edit })
    else (paged space).allocateWithPageType request.size request.pageType
  | space => space.allocateWithPageType request.size request.pageType

def recordFreed (space : SessionSpace) (eoa : ℕ) (extent : Extent) (freeClass : FreeClass) :
    Checked SessionSpace :=
  match space with
  | disabled => .ok disabled
  | flat space => do
    let (_, free) ← space.free.release space.threshold extent
    .ok (flat { space with free := free })
  | paged space => do
    let (post, _) ← space.paged.postFree space.threshold eoa [(extent, freeClass)] []
    let edit ← space.paged.adoptPostFree post false none
    .ok (paged { space with paged := edit })

/-- Records the extents a commit without persisted free space returns, and lowers the end of
allocation over a released tail. -/
def releaseFreed (space : SessionSpace) (eof : ℕ) (extents : List Extent) :
    Checked (Option ℕ × SessionSpace) :=
  match space with
  | flat space => do
    let (eoa, free) ← space.free.releaseAll space.threshold eof extents
    let (start, free) ← free.takeTrailing eoa
    let eoa := start.getD eoa
    .ok (if eoa < eof then some eoa else none, flat { space with free := free })
  | space => .ok (none, space)

end SessionSpace

/-! ## Batches -/

/-- A request with the complete allocation that satisfies it. -/
structure ReservationPlacement where
  request : ReservationRequest
  extent : Extent

/-- The lookup state of a batch. -/
inductive ReservationBatch where
  | disabled
  | flat (free : IndexedFreeList) (threshold : ℕ)
  | paged (metadata raw : IndexedFreeList) (pageSize : FileSpacePageSize)
  | scalar (space : SessionSpace)

namespace ReservationBatch

/-- Claims whole pages of the other type; their unused bytes go to the own type. -/
def claimPages (own other : IndexedFreeList) (pageSize : FileSpacePageSize) (size : ℕ) :
    Checked (Option Extent × IndexedFreeList × IndexedFreeList) :=
  match checkedNextMultipleOf size pageSize.get with
  | none => .ok (none, own, other)
  | some span =>
    if span = 0 then .ok (none, own, other)
    else do
      let (claimed, other) ← other.allocateWholeUnits span
      match claimed with
      | none => .ok (none, own, other)
      | some claimed => do
        let extent ← expect (Extent.new claimed.start size)
          "the allocation fits inside the claimed pages"
        match Extent.between extent.stop claimed.stop with
        | none => .ok (some extent, own, other)
        | some remainder => do
          let own ← own.free remainder
          .ok (some extent, own, other)

def selectOwn (own : IndexedFreeList) (pageSize : FileSpacePageSize)
    (request : ReservationRequest) : Checked (Option Extent × IndexedFreeList) :=
  match request.kind with
  | .block => own.allocateBlock request pageSize
  | .compound => own.allocate request.size

def selectPaged (own other : IndexedFreeList) (pageSize : FileSpacePageSize)
    (request : ReservationRequest) : Checked (Option Extent × IndexedFreeList × IndexedFreeList) := do
  let (extent, own) ← selectOwn own pageSize request
  match extent with
  | some extent => .ok (some extent, own, other)
  | none => claimPages own other pageSize request.size

def select (batch : ReservationBatch) (request : ReservationRequest) :
    Checked (Option Extent × ReservationBatch) :=
  match batch with
  | disabled => .ok (none, disabled)
  | scalar space => do
    let (extent, space) ← space.allocateRequest request
    .ok (extent, scalar space)
  | flat free threshold => do
    let (extent, free) ← free.allocate request.size
    .ok (extent, flat free threshold)
  | paged metadata raw pageSize =>
    match request.pageType with
    | .metadata => do
      let (extent, metadata, raw) ← selectPaged metadata raw pageSize request
      .ok (extent, paged metadata raw pageSize)
    | .raw => do
      let (extent, raw, metadata) ← selectPaged raw metadata pageSize request
      .ok (extent, paged metadata raw pageSize)

def pageSize : ReservationBatch → Option FileSpacePageSize
  | scalar space => space.pageSize
  | paged _ _ pageSize => some pageSize
  | _ => none

/-- Reserves bytes under the allocator's best-fit and PAGE policies. -/
def reserve (batch : ReservationBatch) (request : ReservationRequest) :
    Checked (Option ReservationPlacement × ReservationBatch) := do
  let (extent, after) ← batch.select request
  match extent with
  | none => .ok (none, after)
  | some extent => do
    let placed ← expect (request.placeAfter extent.start batch.pageSize).toOption
      "the selected allocation has representable block geometry"
    assert (placed == extent) "assertion `left == right` failed"
    .ok (some ⟨request, placed⟩, after)

/-- Returns abandoned aggregate spare through ordinary threshold admission. -/
def releaseAggregate (batch : ReservationBatch) (eoa : ℕ) (extent : Extent) :
    Checked (Bool × ReservationBatch) :=
  match batch with
  | flat free threshold => do
    let (_, free) ← free.release threshold extent
    .ok (true, flat free threshold)
  | scalar space =>
    if !space.isPaged && space.isEnabled then do
      let space ← space.recordFreed eoa extent .dead
      .ok (true, scalar space)
    else .ok (false, scalar space)
  | batch => .ok (false, batch)

/-- Restores unused free space, as the end of the batch does. -/
def restore : ReservationBatch → ReservationBatch
  | flat free threshold => flat free.restore threshold
  | paged metadata raw pageSize => paged metadata.restore raw.restore pageSize
  | batch => batch

def work : ReservationBatch → ReservationWork
  | flat free _ => free.work
  | paged metadata raw _ => metadata.work.combine raw.work
  | _ => .default

/-- Restores unused free space and returns the counts; the batch is dropped afterwards. -/
def finish (batch : ReservationBatch) : ReservationWork × ReservationBatch :=
  (batch.restore.work, batch.restore.restore)

def owned (space : SessionSpace) (batch : ReservationBatch) : SessionSpace :=
  match batch, space with
  | scalar space, _ => space
  | flat free _, .flat space => .flat { space with free := free.owner }
  | paged metadata raw _, .paged space =>
    .paged { space with
      paged := { space.paged with metadata := metadata.owner, raw := raw.owner } }
  | _, space => space

end ReservationBatch

namespace SessionSpace

def indexedBatch : SessionSpace → ReservationBatch
  | disabled => .disabled
  | flat space => .flat (.new space.free none) space.threshold
  | paged space =>
    .paged (.new space.paged.metadata (some space.paged.pageSize.unit))
      (.new space.paged.raw (some space.paged.pageSize.unit)) space.paged.pageSize

/-- Borrows reusable space for about `requests` reservations. -/
def reservationBatch (space : SessionSpace) (requests : ℕ) : ReservationBatch :=
  let scalar := decide (requests ≤ 1) || match space with
    | disabled => true
    | flat space => decide (space.free.regions.length ≤ 1)
    | paged _ => false
  if scalar then .scalar space else space.indexedBatch

def reservationBatchWithReturns (space : SessionSpace) (requests : ℕ) : ReservationBatch :=
  if requests ≤ 1 then space.reservationBatch requests
  else match space with
    | flat _ => space.indexedBatch
    | _ => space.reservationBatch requests

end SessionSpace

end Hdf5Pure.Space
