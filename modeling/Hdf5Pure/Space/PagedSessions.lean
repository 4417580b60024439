import Hdf5Pure.Space.Paged
import Hdf5Pure.Utils.Runs

/-!
# Runs of a PAGE session

The session as its caller drives it: the free-space state, the end of allocation and the extents
that are in use, with the page type each was reserved for. Appends and boundary padding move the
end of allocation, allocations come out of the free lists, and a commit frees extents and takes
over the end of allocation that `post_free` returns.
-/

namespace Hdf5Pure.Space

open Checked

/-- A PAGE session and the extents in use. -/
structure PagedSession where
  paged : PagedEdit
  eoa : ℕ
  live : List (Extent × PageType)

/-- One call of the session's owner. -/
inductive PagedOp where
  | append (len : ℕ) (ty : PageType)
  | padPage
  | allocate (len : ℕ) (ty : PageType)
  | allocateBlock (request : ReservationRequest)
  | returnAllocation (extent : Extent) (ty : PageType)
  | commit (threshold : ℕ) (freed : Returns) (oldBlocks : List Extent)

def PageTransition.eoaAfter (eoa : ℕ) : PageTransition → ℕ
  | .pad extent _ => extent.stop
  | .unchanged => eoa

namespace PagedSession

def start (pageSize : FileSpacePageSize) (eoa : ℕ) : PagedSession := ⟨.new pageSize, eoa, []⟩

/-- Appends `len` bytes of `ty` after its transition. A refused append hands out nothing. -/
def append (s : PagedSession) (len : ℕ) (ty : PageType) : Option Extent × PagedSession :=
  match s.paged.planTransition s.eoa ty with
  | .error _ => (none, s)
  | .ok transition =>
    let paged := s.paged.recordTransition ty transition
    let eoa := transition.eoaAfter s.eoa
    match Extent.new eoa len with
    | none => (none, ⟨paged, eoa, s.live⟩)
    | some extent => (some extent, ⟨paged, extent.stop, (extent, ty) :: s.live⟩)

def padPage (s : PagedSession) : PagedSession :=
  match s.paged.pagePadding s.eoa with
  | .error _ | .ok none => s
  | .ok (some transition) =>
    ⟨s.paged.recordPagePadding transition, transition.eoaAfter s.eoa, s.live⟩

def take (s : PagedSession) (ty : PageType) (allocation : Option Extent × PagedEdit) :
    Option Extent × PagedSession :=
  (allocation.1, ⟨allocation.2, s.eoa, allocation.1.toList.map (·, ty) ++ s.live⟩)

def returned (freed : Returns) (oldBlocks : List Extent) : Returns :=
  freed ++ oldBlocks.map (·, .page .metadata)

def step (s : PagedSession) : PagedOp → Checked (Option Extent × PagedSession)
  | .append len ty => .ok (s.append len ty)
  | .padPage => .ok (none, s.padPage)
  | .allocate len ty => do
    let allocation ← s.paged.allocate len ty
    .ok (s.take ty allocation)
  | .allocateBlock request => do
    let allocation ← s.paged.allocateBlock request
    .ok (s.take request.pageType allocation)
  | .returnAllocation extent ty => do
    let paged ← s.paged.returnAllocation extent ty
    .ok (none, ⟨paged, s.eoa, s.live.filter fun entry => entry.1 ≠ extent⟩)
  | .commit threshold freed oldBlocks => do
    let (post, eoa) ← s.paged.postFree threshold s.eoa freed oldBlocks
    let paged ← s.paged.adoptPostFree post false none
    .ok (none, ⟨paged, eoa, s.live.filter fun entry =>
      entry.1 ∉ (returned freed oldBlocks).map Prod.fst⟩)

/-- An extent is returned with its type, and freed once, under that type or as dead space. -/
def Contract (s : PagedSession) : PagedOp → Prop
  | .append _ _ | .padPage | .allocate _ _ | .allocateBlock _ => True
  | .returnAllocation extent ty => (extent, ty) ∈ s.live
  | .commit _ freed oldBlocks =>
    ((returned freed oldBlocks).map Prod.fst).Nodup ∧
      ∀ entry ∈ returned freed oldBlocks,
        ∃ ty, (entry.1, ty) ∈ s.live ∧ (entry.2 = .page ty ∨ entry.2 = .dead)

def lists (s : PagedSession) : List FreeList :=
  [s.paged.metadata, s.paged.raw, s.paged.dead, s.paged.unclassified]

end PagedSession

end Hdf5Pure.Space
