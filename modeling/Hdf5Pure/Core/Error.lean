import Hdf5Pure.Utils.Bytes

/-!
# Format errors

The variants of `FormatError` (`crates/hdf5-pure-core/src/error.rs`) that the modelled functions
return.
-/

namespace Hdf5Pure

/-- An invalid or unrepresentable part of a file. -/
inductive FormatError where
  | offsetOverflow (offset length : ℕ)
  | definedAddressIsUndefined (address offsetSize : ℕ)
  | invalidFilterPipelineField (field : String) (value maximum : ℕ)
  | invalidObjectHeaderSignature
  | pathNotFound (path : String)
  | invalidChunkGeometry (message : String)
  | unexpectedEof (expected available : ℕ)
  | insufficientRegion (requiredStart requiredLength providedStart providedLength : ℕ)
  | lengthTooLarge (length lengthSize : ℕ)
  | invalidGlobalHeapSignature
  | invalidGlobalHeapVersion (version : ℕ)
  | globalHeapCollectionTooSmall (collectionAddress size : ℕ)
  | unalignedGlobalHeapCollection (collectionAddress size : ℕ)
  | globalHeapObjectOutsideCollection (address index collectionEnd : ℕ)
  | misplacedGlobalHeapFreeSpace (address size collectionEnd : ℕ)
  | duplicateGlobalHeapObjectIndex (collectionAddress index : ℕ)
  | globalHeapObjectNotFound (collectionAddress index : ℕ)
  | source (message : String)
  | unexpectedSourceEof (expected available : ℕ)
  | addressBelowBase (address base : ℕ)
  | addressTooLarge (address offsetSize : ℕ)
  | checksumMismatch (expected computed : ℕ)
  | fileRegionLengthMismatch (rangeLength bytesLength : ℕ)
  | invalidFreeSpaceManager (reason : String)
  | invalidFreeSpaceSectionCounts (sections sizeGroups : ℕ)
  | allocationFailed (values : ℕ)
  | truncatedFile (expectedEof actualLen : ℕ)
  | unsupportedVersion (version : ℕ)
  | valueTooLargeForPlatform (value : ℕ) (target : String)
  | internal (reason : String)
deriving DecidableEq, Repr

end Hdf5Pure
