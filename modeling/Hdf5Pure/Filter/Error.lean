import Hdf5Pure.Core.Error

/-!
# Filter errors

The variants of `Error` in `crates/hdf5-pure-filter/src/error.rs`, without those of ZFP. A panic for
want of capacity is one more variant: a `Vec` holds at most `isize::MAX` bytes. Machine words are
those of a 64-bit platform.
-/

namespace Hdf5Pure.Filter

/-- An invalid filter stream or codec configuration. -/
inductive FilterError where
  | dataSizeMismatch (expected actual : ℕ)
  | deflateSizeExceeded (limit required : ℕ)
  | filterError (reason : String)
  | fletcher32Mismatch (expected computed : ℕ)
  | invalidDeflateLevel (level : ℕ)
  | invalidLzfStream (reason : String)
  | lzfSizeExceeded (limit required : ℕ)
  | pipeline (error : FormatError)
  | scaleOffset (reason : String)
  | scaleOffsetValueTooLargeForPlatform (value : ℕ) (target : String)
  | unsupportedFilter (id : ℕ)
  | capacityOverflow
deriving DecidableEq, Repr

def usizeMax : ℕ := 2 ^ 64 - 1

/-- The largest number of bytes in a `Vec`, `isize::MAX`. -/
def vecMax : ℕ := 2 ^ 63 - 1

def saturatingAdd (a b : ℕ) : ℕ := min (a + b) usizeMax

def saturatingMul (a b : ℕ) : ℕ := min (a * b) usizeMax

end Hdf5Pure.Filter
