import Hdf5Pure.Core.Error
import Hdf5Pure.Space.Extent

/-!
# Reservation requests

Allocation classes, page types and reservation requests with their PAGE placement rule:
`allocation.rs`, the head of `paged/mod.rs` and `reservation.rs` of `crates/hdf5-pure-space/src`.
-/

namespace Hdf5Pure.Space

/-- The purpose of an allocation. -/
inductive AllocationClass where
  | metadata
  | raw
deriving DecidableEq, Repr

/-- Whether an allocation belongs to metadata or raw-data pages. -/
inductive PageType where
  | metadata
  | raw
deriving DecidableEq, Repr

/-- The PAGE reuse class of a vacated extent. -/
inductive FreeClass where
  | dead
  | page (ty : PageType)
deriving DecidableEq, Repr

abbrev Returns := List (Extent × FreeClass)

lemma FreeClass.forall_iff {p : FreeClass → Prop} :
    (∀ c, p c) ↔ p .dead ∧ p (.page .metadata) ∧ p (.page .raw) :=
  ⟨fun h => ⟨h _, h _, h _⟩, fun ⟨hd, hm, hr⟩ => by rintro (_ | _ | _) <;> assumption⟩

lemma FreeClass.exists_iff {p : FreeClass → Prop} :
    (∃ c, p c) ↔ p (.page .metadata) ∨ p (.page .raw) ∨ p .dead := by
  constructor
  · rintro ⟨_ | _ | _, h⟩ <;> simp [h]
  · rintro (h | h | h) <;> exact ⟨_, h⟩

/-- Whether a request is for one independently read block or for a compound of them. -/
inductive ReservationKind where
  | block
  | compound
deriving DecidableEq, Repr

def AllocationClass.pageType : AllocationClass → PageType
  | .metadata => .metadata
  | .raw => .raw

/-- A nonempty allocation request with its purpose and effective PAGE type. -/
structure ReservationRequest where
  size : ℕ
  allocationClass : AllocationClass
  pageType : PageType
  kind : ReservationKind
  size_pos : 0 < size
deriving Repr

namespace ReservationRequest

def isBlock (r : ReservationRequest) : Bool := r.kind == .block

/-- The start `placeAfter` selects at or after `start`, before the range is checked. -/
def startAfter (r : ReservationRequest) (start : ℕ) (pageSize : Option FileSpacePageSize) :
    Except FormatError ℕ :=
  match pageSize.filter fun _ => r.isBlock with
  | some pageSize =>
    let remaining := pageSize.get - start % pageSize.get
    if start % pageSize.get ≠ 0 ∧ (pageSize.get ≤ r.size ∨ remaining < r.size) then
      match checkedAdd start remaining with
      | some start => .ok start
      | none => .error (.offsetOverflow start remaining)
    else .ok start
  | none => .ok start

/-- The complete allocation at the earliest permitted address at or after `start`. -/
def placeAfter (r : ReservationRequest) (start : ℕ) (pageSize : Option FileSpacePageSize) :
    Except FormatError Extent := do
  let start ← r.startAfter start pageSize
  match Extent.new start r.size with
  | some extent => .ok extent
  | none => .error (.offsetOverflow start r.size)

end ReservationRequest

end Hdf5Pure.Space
