import Hdf5Pure.Core.FileRange
import Hdf5Pure.Utils.Sorting

/-!
# Coalesced chunk reads

`ChunkSpanReader` (`src/chunk_span.rs`): planned chunks that touch are merged into spans, a span is
read in one call, and its chunks are served from the buffer. An `AddressRange`
(`crates/hdf5-pure-core/src/address_range.rs`) is the interval of a `FileRange`, and `usize` has 64
bits. The source is a parameter: whether a read fails may depend on the reads before it.
-/

namespace Hdf5Pure.Chunk

abbrev AddressRange := FileRange

/-- The reads of a source, after other reads. A read into a buffer also returns the buffer it
leaves. -/
structure StoredRead where
  readAt : List (ℕ × ℕ) → ℕ → Bytes → Except FormatError Unit × Bytes
  readExactAt : List (ℕ × ℕ) → ℕ → ℕ → Except FormatError Bytes

def maxSpanBytes : ℕ := 256 * 1024

structure ChunkSpanReader where
  spans : List AddressRange
  held : Option AddressRange
  buf : Bytes
  scratch : Bytes

namespace ChunkSpanReader

def extendSpan (last range : AddressRange) : Option AddressRange := do
  let length ← checkedSub (max last.stop range.stop) last.start
  (FileRange.new last.start length).toOption

/-- The loop of `new`, with the spans so far. -/
def coalesce : List AddressRange → List AddressRange → Option (List AddressRange)
  | spans, [] => some spans
  | spans, range :: ranges =>
    match spans.getLast? with
    | none => coalesce (spans ++ [range]) ranges
    | some last =>
      if range.start ≤ last.stop ∧
          (checkedSub range.stop last.start).any fun length => length ≤ maxSpanBytes then do
        let merged ← extendSpan last range
        coalesce (spans.dropLast ++ [merged]) ranges
      else coalesce (spans ++ [range]) ranges

def new (sort : UnstableSort) (chunks : List (ℕ × ℕ)) : Option ChunkSpanReader := do
  let ranges ← (chunks.mapM fun chunk => FileRange.new chunk.1 chunk.2).toOption
  if ranges.length < 2 then none
  else
    let spans ← coalesce [] (sort.sortBy FileRange.start ranges)
    if spans.length = ranges.length then none else some ⟨spans, none, [], []⟩

def spanContaining (search : BinarySearch) (reader : ChunkSpanReader) (required : AddressRange) :
    Option AddressRange :=
  let index := match search.find (reader.spans.map FileRange.start) required.start with
    | .ok i => some i
    | .error 0 => none
    | .error (i + 1) => some i
  (index.bind fun i => reader.spans[i]?).filter fun span => span.contains required

def resize (buf : Bytes) (len : ℕ) : Bytes :=
  buf.take len ++ List.replicate (len - buf.length) 0

def serve (reader : ChunkSpanReader) (address len : ℕ) : Checked (Except FormatError Bytes) := do
  let span ← Checked.expect reader.held "held above, or set just above"
  match checkedSub address span.start with
  | none => .ok (.error (.internal "a held chunk precedes its span"))
  | some lo =>
    match (checkedAdd lo len).filter fun hi => hi ≤ reader.buf.length with
    | some _ => .ok (.ok (slice reader.buf lo len))
    | none => .ok (.error (.unexpectedEof (min (lo + len) (2 ^ 64 - 1)) reader.buf.length))

/-- The bytes of a chunk. The reads so far are passed along, each with its start and length. -/
def chunkBytes (search : BinarySearch) (source : StoredRead) (reader : ChunkSpanReader)
    (address len : ℕ) (reads : List (ℕ × ℕ)) :
    Checked (Except FormatError Bytes × ChunkSpanReader × List (ℕ × ℕ)) :=
  match FileRange.new address len with
  | .error e => .ok (.error e, reader, reads)
  | .ok required =>
    if reader.held.any fun span => span.contains required then do
      let bytes ← reader.serve address len
      .ok (bytes, reader, reads)
    else
      match reader.spanContaining search required with
      | none =>
        match source.readExactAt reads address len with
        | .error e => .ok (.error e, reader, reads ++ [(address, len)])
        | .ok bytes => .ok (.ok bytes, { reader with scratch := bytes }, reads ++ [(address, len)])
      | some span =>
        match source.readAt reads span.start (resize reader.buf span.length) with
        | (.error e, buf) =>
          .ok (.error e, { reader with held := none, buf := buf },
            reads ++ [(span.start, span.length)])
        | (.ok (), buf) => do
          let reader := { reader with held := some span, buf := buf }
          let bytes ← reader.serve address len
          .ok (bytes, reader, reads ++ [(span.start, span.length)])

def step (search : BinarySearch) (source : StoredRead) (state : ChunkSpanReader × List (ℕ × ℕ))
    (request : ℕ × ℕ) :
    Checked (Except FormatError Bytes × ChunkSpanReader × List (ℕ × ℕ)) :=
  state.1.chunkBytes search source request.1 request.2 state.2

end ChunkSpanReader

end Hdf5Pure.Chunk
