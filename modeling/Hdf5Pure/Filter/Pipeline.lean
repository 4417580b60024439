import Hdf5Pure.Filter.Deflate
import Hdf5Pure.Filter.Fletcher
import Hdf5Pure.Filter.Lzf
import Hdf5Pure.Filter.ScaleOffset
import Hdf5Pure.Filter.Shuffle

/-!
# Filter pipelines

`compress_chunk_with` and `decompress_chunk_with` of `crates/hdf5-pure-filter/src/pipeline/mod.rs`,
without ZFP. Each stage reads a view and writes into storage that earlier stages or chunks used.
Decoding runs the filters backwards; each decoder is bounded by what the filters before it can make of
a full chunk.
-/

namespace Hdf5Pure.Filter

def filterDeflate : ℕ := 1
def filterShuffle : ℕ := 2
def filterFletcher32 : ℕ := 3
def filterScaleoffset : ℕ := 6
def filterLzf : ℕ := 32000

/-- A pipeline filter: its identifier and its client data values. -/
structure FilterStep where
  id : ℕ
  clientData : List UInt32
deriving DecidableEq, Repr

/-- The chunk dimensions and the element size. -/
structure ChunkContext where
  chunkDims : List ℕ
  elementSize : ℕ
  elementSize_pos : 0 < elementSize

/-- The codecs that are not modelled: zlib, and the arithmetic of floating-point scale-offset. -/
structure Codecs where
  zlib : Zlib
  float : ScaleOffset.FloatScale

def filterCountMax : ℕ := 32

/-- The positions of a pipeline, with `true` for a skipped filter. -/
def maskPositions (bits count : ℕ) : Except FormatError (List (ℕ × Bool)) :=
  if filterCountMax < count then
    .error (.invalidFilterPipelineField "filter count" count filterCountMax)
  else .ok ((List.range count).map fun i => (i, bits.testBit i))

/-- A product of `u64` numbers, if it fits. -/
def checkedProduct (dims : List ℕ) : Option ℕ :=
  dims.foldlM (fun acc d => if acc * d < 2 ^ 64 then some (acc * d) else none) 1

/-- The number of bytes in a full chunk, if it fits and is not zero. -/
def expectedChunkLen (ctx : ChunkContext) : Option ℕ := do
  let elems ← checkedProduct ctx.chunkDims
  let bytes ← if elems * ctx.elementSize < 2 ^ 64 then some (elems * ctx.elementSize) else none
  if bytes = 0 then none else some bytes

/-- The most bytes that a filter makes of `inSize` bytes. -/
def maxForwardOutput (filter : FilterStep) (inSize : ℕ) : ℕ :=
  if filter.id = filterFletcher32 then saturatingAdd inSize 4
  else if filter.id = filterLzf then saturatingMul inSize 2
  else if filter.id = filterScaleoffset then saturatingAdd inSize ScaleOffset.headerLen
  else if filter.id = filterDeflate then saturatingAdd (saturatingAdd inSize (inSize / 16)) 64
  else inSize

/-- The bound on a decoder's output: what the active filters before it can make of a chunk. -/
def innerOutputCap (filters : List FilterStep) (bits : ℕ) (expected : Option ℕ) (index : ℕ) :
    Option ℕ :=
  expected.map fun size =>
    (filters.zipIdx.take index).foldl
      (fun size step => if bits.testBit step.2 then size else maxForwardOutput step.1 size) size

def allocated (buffer : FilterBuffer × Bytes) : Except FilterError (FilterBuffer × Bytes) :=
  if buffer.1.asSlice.length ≤ vecMax then .ok buffer else .error .capacityOverflow

section Stages

variable (codecs : Codecs) (ctx : ChunkContext)

def compressStage (filter : FilterStep) (current : FilterBuffer) (spare : Bytes) :
    Except FilterError (FilterBuffer × Bytes) :=
  if filter.id = filterShuffle then
    if ctx.elementSize = 1 then .ok (current, spare)
    else
      current.overwrite spare fun input window =>
        let window := window.resize input.length
        .ok (input.length,
          window.writeAt 0 (shuffleCompressInto input ctx.elementSize window.slice))
  else if filter.id = filterDeflate then do
    let level ← deflateLevel filter.clientData
    .ok (current.replace spare (deflateCompress codecs.zlib current.asSlice level))
  else if filter.id = filterLzf then
    current.materialize spare fun input => .ok (Lzf.compressInto input)
  else if filter.id = filterFletcher32 then
    .ok (current.append spare (checksumBytes current.asSlice))
  else if filter.id = filterScaleoffset then
    ScaleOffset.compress codecs.float current spare filter.clientData
  else .error (.unsupportedFilter filter.id)

/-- Reverses one filter, whose decoder may produce `cap` bytes. -/
def decompressStage (filter : FilterStep) (cap : Option ℕ) (current : FilterBuffer)
    (spare : Bytes) : Except FilterError (FilterBuffer × Bytes) :=
  if filter.id = filterShuffle then
    if ctx.elementSize = 1 then .ok (current, spare)
    else
      current.overwrite spare fun input window =>
        let window := window.resize input.length
        .ok (input.length,
          window.writeAt 0 (shuffleDecompressInto input ctx.elementSize window.slice))
  else if filter.id = filterDeflate then deflateDecompress codecs.zlib current spare cap
  else if filter.id = filterLzf then
    current.materialize spare fun input => Lzf.decompressInto input cap
  else if filter.id = filterFletcher32 then do
    let payload ← fletcher32Verify current.asSlice
    let view ← current.narrow 0 payload.length
    .ok (view, spare)
  else if filter.id = filterScaleoffset then
    ScaleOffset.decompress codecs.float current spare filter.clientData cap
  else .error (.unsupportedFilter filter.id)

def compressFrom : List FilterStep → FilterBuffer → Bytes →
    Except FilterError (FilterBuffer × Bytes)
  | [], current, spare => .ok (current, spare)
  | filter :: filters, current, spare => do
    let (current, spare) ← compressStage codecs ctx filter current spare >>= allocated
    compressFrom filters current spare

/-- Applies the filters in pipeline order. Returns the stored bytes and the spare. -/
def compressChunkWith (spare data : Bytes) (filters : List FilterStep) :
    Except FilterError (Bytes × Bytes) :=
  match maskPositions 0 filters.length with
  | .error e => .error (.pipeline e)
  | .ok _ => do
    let (current, spare) ← compressFrom codecs ctx filters (.borrowed data) spare
    .ok (current.intoOwned, spare)

/-- Reverses the filters at the given positions that were not skipped. -/
def decompressFrom (filters : List FilterStep) (bits : ℕ) (expected : Option ℕ) :
    List (ℕ × Bool) → FilterBuffer → Bytes → Except FilterError (FilterBuffer × Bytes)
  | [], current, spare => .ok (current, spare)
  | (i, skipped) :: positions, current, spare =>
    if skipped then decompressFrom filters bits expected positions current spare
    else do
      let filter := filters.getD i ⟨0, []⟩
      let cap := innerOutputCap filters bits expected i
      let (current, spare) ← decompressStage codecs ctx filter cap current spare >>= allocated
      decompressFrom filters bits expected positions current spare

def decompressChunkWith (spare compressed : Bytes) (filters : List FilterStep)
    (filterMask : ℕ) : Except FilterError (Bytes × Bytes) :=
  match maskPositions filterMask filters.length with
  | .error e => .error (.pipeline e)
  | .ok positions => do
    let expected := expectedChunkLen ctx
    let (current, spare) ←
      decompressFrom codecs ctx filters filterMask expected positions.reverse (.borrowed compressed)
        spare
    -- a chunk decodes to its full size
    match expected with
    | some expected =>
      if current.asSlice.length ≠ expected then
        .error (.dataSizeMismatch expected current.asSlice.length)
      else .ok (current.intoOwned, spare)
    | none => .ok (current.intoOwned, spare)

end Stages

end Hdf5Pure.Filter
