import Hdf5Pure.Core.FileRange

/-!
# Stored addresses

The address fields of a file and their widths (`crates/hdf5-pure-core/src/address.rs` and
`crates/hdf5-pure-format/src/width.rs`), stored and physical addresses (`src/address.rs`), and
random access to an opened file (`src/source/backend.rs`). The undefined address decodes to `none`.
-/

namespace Hdf5Pure

/-- The width of an address field, the superblock's "Size of Offsets". -/
inductive OffsetWidth where
  | two
  | four
  | eight
deriving DecidableEq, Repr

def OffsetWidth.get : OffsetWidth → ℕ
  | .two => 2
  | .four => 4
  | .eight => 8

/-- The widths of the address and length fields of a file. -/
structure FormatWidths where
  offsets : OffsetWidth
  lengths : LengthWidth
deriving DecidableEq, Repr

def undefinedAddress (offsets : OffsetWidth) : ℕ := 256 ^ offsets.get - 1

def lengthWidthMax (lengths : LengthWidth) : ℕ := 256 ^ lengths.get - 1

def decodeStoredAddress (offsets : OffsetWidth) (data : Bytes) (pos : ℕ) :
    Except FormatError (Option ℕ) := do
  let stored ← uintAt data pos offsets.get
  .ok (if stored = undefinedAddress offsets then none else some stored)

def resolve (base stored : ℕ) : Except FormatError ℕ :=
  match checkedAdd stored base with
  | some position => .ok position
  | none => .error (.offsetOverflow stored base)

def relative (base position : ℕ) : Except FormatError ℕ :=
  match checkedSub position base with
  | some stored => .ok stored
  | none => .error (.addressBelowBase position base)

/-- The bytes of an opened file. A read fills the buffer it is given or fails. -/
structure Source where
  len : ℕ
  readAt : ℕ → ℕ → Except FormatError Bytes
  length_readAt : ∀ {offset n bytes}, readAt offset n = .ok bytes → bytes.length = n

namespace Source

/-- Reads `n` bytes after checking that the source holds them. -/
def readExactAt (source : Source) (offset n : ℕ) : Except FormatError Bytes :=
  match checkedAdd offset n with
  | none => .error (.offsetOverflow offset n)
  | some stop =>
    if source.len < stop then .error (.unexpectedSourceEof stop source.len)
    else source.readAt offset n

def ofBytes (content : Bytes) : Source where
  len := content.length
  readAt offset n :=
    if offset + n ≤ content.length then .ok (slice content offset n)
    else .error (.unexpectedSourceEof (offset + n) content.length)
  length_readAt {offset n bytes} h := by
    split at h
    · cases h
      rw [length_slice]
      omega
    · cases h

end Source

lemma resolve_eq_ok {base stored position : ℕ} (h : resolve base stored = .ok position) :
    position = stored + base := addressAdd_eq_ok h

lemma relative_eq_ok {base position stored : ℕ} :
    relative base position = .ok stored ↔ base ≤ position ∧ stored = position - base := by
  unfold relative
  split
  · rename_i hsub
    obtain ⟨hle, rfl⟩ := checkedSub_eq_some.mp hsub
    constructor
    · intro h
      cases h
      exact ⟨hle, rfl⟩
    · rintro ⟨-, rfl⟩
      rfl
  · rename_i hsub
    constructor
    · intro h
      cases h
    · rintro ⟨hle, -⟩
      rw [checkedSub_eq_some.mpr ⟨hle, rfl⟩] at hsub
      cases hsub

end Hdf5Pure
