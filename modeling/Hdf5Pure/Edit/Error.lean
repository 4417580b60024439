import Hdf5Pure.Core.Error

/-!
# Errors of the editing layer

The variants of `Error` (`src/error.rs`) and of the traversal errors (`src/object_graph.rs`) that
the modelled functions return.
-/

namespace Hdf5Pure.Edit

/-- The quantity a traversal budget bounds. -/
inductive TraversalLimit where
  | objects
  | links
deriving DecidableEq, Repr

/-- An error of an editing session. The cause of an I/O error is left out. -/
inductive Error where
  | format (error : FormatError)
  | io
  | editUnsupported (reason : String)
  | appendUnsupported (reason : String)
  | appendInPlaceUnsupported (reason : String)
  | swmrAppendUnsupported (reason : String)
  | fileClosed
  | notAGroup (path : String)
  | traversalLimitExceeded (limit : TraversalLimit) (maximum : ℕ)
  | overlappingFreeSections (address length previousAddress previousLength : ℕ)
  | persistedFreeSpace (managerSlot headerAddress : ℕ) (sectionListAddress : Option ℕ)
      (record : Option (ℕ × ℕ)) (source : Error)
  | allocationPublicationUncertain
  | commitPartiallyApplied (refusal restore : Error)
deriving DecidableEq, Repr

/-- An error of a traversal, or the first error of its expansions. -/
inductive TraversalError (ε : Type) where
  | limitExceeded (limit : TraversalLimit) (maximum : ℕ)
  | expand (error : ε)
deriving DecidableEq, Repr

def TraversalError.toError : TraversalError Error → Error
  | .limitExceeded limit maximum => .traversalLimitExceeded limit maximum
  | .expand error => error

end Hdf5Pure.Edit
