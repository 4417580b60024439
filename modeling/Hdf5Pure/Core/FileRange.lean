import Hdf5Pure.Core.Error
import Hdf5Pure.Utils.Checked
import Hdf5Pure.Utils.Patch

/-!
# Ranges of a file and the fields read from it

`FileRange` (`crates/hdf5-pure-core/src/region.rs`), the width of lengths (`width.rs`) and the reads of
little-endian fields (`crates/hdf5-pure-format/src/bytes.rs`).
-/

namespace Hdf5Pure

/-- The width of a length field, the superblock's "Size of Lengths". -/
inductive LengthWidth where
  | two
  | four
  | eight
deriving DecidableEq, Repr

def LengthWidth.get : LengthWidth → ℕ
  | .two => 2
  | .four => 4
  | .eight => 8

lemma LengthWidth.get_le (width : LengthWidth) : width.get ≤ 8 := by
  cases width <;> decide

/-- A half-open interval of physical byte positions, whose end is a position. -/
structure FileRange where
  start : ℕ
  length : ℕ
  bound : start + length < 2 ^ 64
deriving Repr

namespace FileRange

lemma eq_iff {r r' : FileRange} : r = r' ↔ r.start = r'.start ∧ r.length = r'.length := by
  cases r
  cases r'
  simp

instance : DecidableEq FileRange := fun _ _ => decidable_of_iff' _ eq_iff

def new (start length : ℕ) : Except FormatError FileRange :=
  if h : start + length < 2 ^ 64 then .ok ⟨start, length, h⟩
  else .error (.offsetOverflow start length)

def stop (r : FileRange) : ℕ := r.start + r.length

def contains (r required : FileRange) : Bool :=
  decide (r.start ≤ required.start) && decide (required.stop ≤ r.stop)

def overlaps (r other : FileRange) : Bool :=
  decide (0 < r.length) && decide (0 < other.length) && decide (r.start < other.stop) &&
    decide (other.start < r.stop)

lemma new_eq_ok {start length : ℕ} {r : FileRange} (h : new start length = .ok r) :
    r.start = start ∧ r.length = length := by
  unfold new at h
  split at h
  · cases h
    exact ⟨rfl, rfl⟩
  · cases h

lemma new_of_lt {start length : ℕ} (h : start + length < 2 ^ 64) :
    new start length = .ok ⟨start, length, h⟩ := dif_pos h

lemma contains_iff {r required : FileRange} :
    r.contains required = true ↔ r.start ≤ required.start ∧ required.stop ≤ r.stop := by
  unfold contains
  rw [Bool.and_eq_true, decide_eq_true_iff, decide_eq_true_iff]

end FileRange

/-- The position `length` bytes after `address`. -/
def addressAdd (address length : ℕ) : Except FormatError ℕ :=
  match checkedAdd address length with
  | some sum => .ok sum
  | none => .error (.offsetOverflow address length)

lemma addressAdd_eq_ok {address length sum : ℕ} (h : addressAdd address length = .ok sum) :
    sum = address + length := by
  unfold addressAdd at h
  cases hadd : checkedAdd address length with
  | none => rw [hadd] at h; cases h
  | some s =>
    rw [hadd] at h
    cases h
    exact ((checkedAdd_eq_some.mp hadd).2).symm

def regionAt (content : Bytes) (range : FileRange) : Except FormatError Bytes :=
  if range.stop ≤ content.length then .ok (slice content range.start range.length)
  else .error (.unexpectedSourceEof range.stop content.length)

/-- The unsigned integer of `width` bytes at `pos` of a block. -/
def uintAt (data : Bytes) (pos width : ℕ) : Except FormatError ℕ :=
  if pos + width ≤ data.length then .ok (leNat (slice data pos width))
  else .error (.unexpectedEof (pos + width) data.length)

variable {content : Bytes}

lemma regionAt_eq_ok {region : Bytes} {range : FileRange} :
    regionAt content range = .ok region ↔
      range.stop ≤ content.length ∧ region = slice content range.start range.length := by
  unfold regionAt
  split
  · rename_i h
    exact ⟨fun heq => ⟨h, (Except.ok.inj heq).symm⟩, fun heq => by rw [heq.2]⟩
  · rename_i h
    exact ⟨fun heq => (by cases heq), fun heq => absurd heq.1 h⟩

/-- A field of a slice is a field of the whole. -/
lemma uintAt_slice_eq_ok {start n pos width v : ℕ}
    (h : uintAt (slice content start n) pos width = .ok v) :
    leNat (slice content (start + pos) width) = v := by
  unfold uintAt at h
  split at h
  · rename_i hfits
    have hle : (slice content start n).length ≤ n := by
      exact List.length_take_le _ _
    rw [← slice_slice content (hfits.trans hle)]
    exact Except.ok.inj h
  · cases h

lemma uintAt_slice {start n pos width : ℕ} (h : start + n ≤ content.length)
    (hfits : pos + width ≤ n) :
    uintAt (slice content start n) pos width = .ok (leNat (slice content (start + pos) width)) := by
  rw [uintAt, if_pos (by rw [length_slice h]; exact hfits), slice_slice content hfits]

def writeLengthAt (data : Bytes) (pos value : ℕ) (width : LengthWidth) : Except FormatError Bytes :=
  if 256 ^ width.get ≤ value then .error (.lengthTooLarge value width.get)
  else if pos + width.get ≤ data.length then .ok (patch data pos (leBytes width.get value))
  else .error (.unexpectedEof (pos + width.get) data.length)

end Hdf5Pure
