import Hdf5Pure.Core.FileRange

/-!
# Global heap collections and their compaction plans

The parser of a collection (`crates/hdf5-pure-format/src/global_heap/mod.rs`) and the plans of packed
records (`global_heap/compaction/mod.rs`). The caller of the parser reads the header ranges from the
bytes of the file, which the model takes as one list. A walk that has parsed no more than the
collection's length in headers is complete, as every object takes a header.
-/

namespace Hdf5Pure.Heap

def alignment : ℕ := 8

def fixedHeaderLen : ℕ := 8

def minCollectionSize : ℕ := 4096

def aligned (n : ℕ) : ℕ := (n + (alignment - 1)) / alignment * alignment

def headerLen (lengths : LengthWidth) : ℕ := aligned (fixedHeaderLen + lengths.get)

def gcolSignature : Bytes := [71, 67, 79, 76]

structure GlobalHeapCollection where
  range : FileRange
  lengths : LengthWidth
  /-- The range of the first object header. -/
  first : FileRange
deriving DecidableEq, Repr

structure GlobalHeapObject where
  index : ℕ
  referenceCount : ℕ
  range : FileRange
  /-- The range of the data, without its padding. -/
  payload : FileRange
deriving DecidableEq, Repr

namespace GlobalHeapCollection

def parse (content : Bytes) (address : ℕ) (lengths : LengthWidth) :
    Except FormatError GlobalHeapCollection := do
  let header ← regionAt content (← FileRange.new address (headerLen lengths))
  if slice header 0 4 ≠ gcolSignature then .error .invalidGlobalHeapSignature
  else
    let version ← uintAt header 4 1
    if version ≠ 1 then .error (.invalidGlobalHeapVersion version)
    else
      let size ← uintAt header 8 lengths.get
      if size < minCollectionSize then .error (.globalHeapCollectionTooSmall address size)
      else if size % alignment ≠ 0 then .error (.unalignedGlobalHeapCollection address size)
      else
        let range ← FileRange.new address size
        let first ← FileRange.new (← addressAdd address (headerLen lengths)) (headerLen lengths)
        .ok ⟨range, lengths, first⟩

def remaining (c : GlobalHeapCollection) (start : ℕ) : Except FormatError ℕ :=
  match checkedSub c.range.stop start with
  | some n => .ok n
  | none => .error (.internal "a global heap object header starts past its collection")

def headerRange (c : GlobalHeapCollection) (start : ℕ) : Except FormatError (Option FileRange) := do
  let remaining ← c.remaining start
  if remaining = 0 then .ok none
  else
    let range ← FileRange.new start (min remaining (headerLen c.lengths))
    .ok (some range)

/-- The length of an object with its header and its padded data, if it fits. -/
def objectExtent (c : GlobalHeapCollection) (size remaining : ℕ) : Option ℕ :=
  (checkedNextMultipleOf size alignment).bind fun padded =>
    (checkedAdd padded (headerLen c.lengths)).filter fun extent => decide (extent ≤ remaining)

def parseObject (c : GlobalHeapCollection) (range : FileRange) (header : Bytes) :
    Except FormatError (Option GlobalHeapObject) := do
  let collectionEnd := c.range.stop
  let index ← uintAt header 0 2
  if range.length < headerLen c.lengths then
    if index = 0 then .ok none
    else .error (.globalHeapObjectOutsideCollection range.start index collectionEnd)
  else
    let referenceCount ← uintAt header 2 2
    let size ← uintAt header 8 c.lengths.get
    let remaining ← c.remaining range.start
    if index = 0 then
      if size ≠ remaining then
        .error (.misplacedGlobalHeapFreeSpace range.start size collectionEnd)
      else .ok none
    else
      match c.objectExtent size remaining with
      | none => .error (.globalHeapObjectOutsideCollection range.start index collectionEnd)
      | some extent =>
        let whole ← FileRange.new range.start extent
        let payload ← FileRange.new range.stop size
        .ok (some ⟨index, referenceCount, whole, payload⟩)

/-- One step of a walk: the object at a header, the next header, and the indices so far. -/
def step (c : GlobalHeapCollection) (content : Bytes) (range : FileRange) (seen : List ℕ) :
    Except FormatError (Option GlobalHeapObject × Option FileRange × List ℕ) := do
  match ← c.parseObject range (← regionAt content range) with
  | none => .ok (none, none, seen)
  | some object =>
    let next ← c.headerRange object.range.stop
    if seen.contains object.index then
      .error (.duplicateGlobalHeapObjectIndex c.range.start object.index)
    else .ok (some object, next, object.index :: seen)

/-- The objects from a header on. `seen` are the indices before it. -/
def walk (c : GlobalHeapCollection) (content : Bytes) :
    ℕ → Option FileRange → List ℕ → Except FormatError (List GlobalHeapObject)
  | 0, _, _ => .ok []
  | _ + 1, none, _ => .ok []
  | fuel + 1, some range, seen => do
    match ← c.step content range seen with
    | (none, _, _) => .ok []
    | (some object, next, seen) =>
      let rest ← c.walk content fuel next seen
      .ok (object :: rest)

/-- A lookup of the object at an index. It parses every header, those after the object included. -/
def lookup (c : GlobalHeapCollection) (content : Bytes) (index : ℕ) :
    ℕ → FileRange → List ℕ → Option GlobalHeapObject → Except FormatError GlobalHeapObject
  | 0, _, _, _ => .error (.internal "a global heap lookup ran past its collection")
  | fuel + 1, range, seen, found => do
    let (object, next, seen) ← c.step content range seen
    let found := (object.filter fun o => o.index == index).or found
    match next with
    | some next => c.lookup content index fuel next seen found
    | none =>
      match found with
      | some object => .ok object
      | none => .error (.globalHeapObjectNotFound c.range.start index)

end GlobalHeapCollection

/-! ## Encoding -/

inductive GlobalHeapCollectionError where
  | format (error : FormatError)
  | tooLarge (size : ℕ) (lengthWidth : LengthWidth)
  | tooManyObjects (count : ℕ)
deriving DecidableEq, Repr

def globalHeapMaxObjects : ℕ := 65535

def alignedCollectionSize (size : ℕ) : Except FormatError ℕ :=
  addressAdd size ((alignment - size % alignment) % alignment)

def addObjectSizes (headerSize : ℕ) : List Bytes → ℕ → Except FormatError ℕ
  | [], size => .ok size
  | object :: rest, size => do
    let withHeader ← addressAdd size headerSize
    let padded ← alignedCollectionSize object.length
    let size ← addressAdd withHeader padded
    addObjectSizes headerSize rest size

def collectionSizes (lengths : LengthWidth) (objects : List Bytes) :
    Except FormatError (ℕ × ℕ) := do
  let headerSize ← alignedCollectionSize (fixedHeaderLen + lengths.get)
  let size ← addObjectSizes headerSize objects headerSize
  let withFree ← addressAdd size headerSize
  let padded ← alignedCollectionSize (max withFree minCollectionSize)
  .ok (headerSize, padded)

def resize (l : Bytes) (n : ℕ) : Bytes :=
  l.take n ++ List.replicate (n - l.length) 0

def appendObject (lengths : LengthWidth) (headerSize : ℕ) (buf : Bytes)
    (object : Bytes × ℕ) : Bytes :=
  let start := buf.length
  let buf := buf ++ leBytes 2 (object.2 + 1) ++ leBytes 2 1 ++ [0, 0, 0, 0] ++
    leBytes lengths.get object.1.length
  let buf := resize buf (start + headerSize) ++ object.1
  resize buf (aligned buf.length)

def encodeGlobalHeapCollection (lengths : LengthWidth) (objects : List Bytes) :
    Except GlobalHeapCollectionError Bytes :=
  if objects.length > globalHeapMaxObjects then .error (.tooManyObjects objects.length)
  else
    match collectionSizes lengths objects with
    | .error e => .error (.format e)
    | .ok (headerSize, padded) =>
      if 256 ^ lengths.get ≤ padded then .error (.tooLarge padded lengths)
      else
        let buf := resize (gcolSignature ++ [1] ++ [0, 0, 0] ++ leBytes lengths.get padded) headerSize
        let buf := objects.zipIdx.foldl (appendObject lengths headerSize) buf
        -- the free space spans the rest, its own header included
        let free := padded - buf.length
        .ok (resize (buf ++ leBytes 2 0 ++ leBytes 2 0 ++ [0, 0, 0, 0] ++ leBytes lengths.get free)
          padded)

/-! ## Compaction plans -/

/-- The members of a completely parsed collection, in physical order. -/
structure GlobalHeapMembers where
  collection : GlobalHeapCollection
  members : List GlobalHeapObject
deriving DecidableEq, Repr

def collectMembers (content : Bytes) (address : ℕ) (lengths : LengthWidth) :
    Except FormatError GlobalHeapMembers := do
  let collection ← GlobalHeapCollection.parse content address lengths
  let members ← collection.walk content collection.range.length (some collection.first) []
  .ok ⟨collection, members⟩

structure GlobalHeapMove where
  object : GlobalHeapObject
  destination : FileRange
deriving DecidableEq, Repr

structure GlobalHeapFreeSpace where
  range : FileRange
  header : FileRange
  bytes : Bytes
deriving DecidableEq, Repr

structure GlobalHeapCompaction where
  collection : FileRange
  moves : List GlobalHeapMove
  freeSpace : Option GlobalHeapFreeSpace
  retained : ℕ
deriving DecidableEq, Repr

def freeHeaderLen : ℕ := 16

/-- The moves of the records that stay, the number of the others, and the end of the packed records. -/
def packRecords (remove : GlobalHeapObject → Bool) :
    List GlobalHeapObject → ℕ → Except FormatError (List GlobalHeapMove × ℕ × ℕ)
  | [], destination => .ok ([], 0, destination)
  | object :: rest, destination =>
    if remove object then do
      let (moves, removed, stop) ← packRecords remove rest destination
      .ok (moves, removed + 1, stop)
    else do
      let range ← FileRange.new destination object.range.length
      let (moves, removed, stop) ← packRecords remove rest range.stop
      if destination ≠ object.range.start then .ok (⟨object, range⟩ :: moves, removed, stop)
      else .ok (moves, removed, stop)

namespace GlobalHeapMembers

def freeSpace (m : GlobalHeapMembers) (destination : ℕ) : Except FormatError GlobalHeapFreeSpace := do
  let length := m.collection.range.stop - destination
  let range ← FileRange.new destination length
  let header ← FileRange.new destination freeHeaderLen
  let bytes ← writeLengthAt (List.replicate freeHeaderLen 0) fixedHeaderLen length
    m.collection.lengths
  .ok ⟨range, header, bytes⟩

/-- Plans packed records without the members that `remove` selects. -/
def compact (m : GlobalHeapMembers) (remove : GlobalHeapObject → Bool) :
    Except FormatError GlobalHeapCompaction := do
  let (moves, removed, destination) ← packRecords remove m.members m.collection.first.start
  let freeSpace ← if removed = 0 then .ok none else (m.freeSpace destination).map some
  .ok ⟨m.collection.range, moves, freeSpace, m.members.length - removed⟩

end GlobalHeapMembers

end Hdf5Pure.Heap
