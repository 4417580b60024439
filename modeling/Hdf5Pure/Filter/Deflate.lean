import Hdf5Pure.Filter.Buffer

/-!
# The Deflate filter

The decode side of Deflate in `crates/hdf5-pure-filter/src/pipeline/mod.rs`. The zlib codec itself is
a parameter: an encoder, and a decoder that is called with the rest of a stream and a writable window
of output. A scratch decoder is reset before each stream, which is the same as a new one.
-/

namespace Hdf5Pure.Filter

/-- What a call of the decoder reports. -/
inductive Status where
  | ok
  | bufError
  | streamEnd
deriving DecidableEq, Repr

/-- How a call of the decoder may end. -/
inductive FlushDecompress where
  | none
  | finish
deriving DecidableEq, Repr

/-- The result of a call: what it reports, the decoder after it, and the bytes it wrote. -/
structure DecompressCall (Decoder : Type) where
  status : Except String Status
  decoder : Decoder
  out : Bytes

structure Zlib where
  /-- The state of a decoder. -/
  Decoder : Type
  /-- The stream of the bytes at a level. -/
  deflate : ℕ → Bytes → Bytes
  /-- A decoder that has seen nothing. -/
  new : Decoder
  /-- The bytes that a decoder has read. -/
  totalIn : Decoder → ℕ
  /-- The bytes that a decoder has written. -/
  totalOut : Decoder → ℕ
  /-- Reads input and writes into a window of the given length. -/
  decompress : Decoder → Bytes → ℕ → FlushDecompress → DecompressCall Decoder
  length_out_le : ∀ decoder input room flush, (decompress decoder input room flush).out.length ≤ room

namespace OutputWindow

lemma length_slice (window : OutputWindow) : window.slice.length = window.stop := by
  rw [slice, List.length_take]
  exact min_eq_left window.stop_le

def writeAt (window : OutputWindow) (start : ℕ) (out : Bytes) : OutputWindow :=
  if h : start + out.length ≤ window.stop then
    window.write (window.slice.take start ++ out ++ window.slice.drop (start + out.length)) (by
      simp only [List.length_append, List.length_take, List.length_drop, length_slice]
      omega)
  else window

end OutputWindow

/-- An allocation size bounded by the output cap and the input size times an expansion factor. -/
def decodeReservation (cap : Option ℕ) (inSize maxExpansion : ℕ) : ℕ :=
  match cap with
  | some cap => min cap (saturatingMul inSize maxExpansion)
  | none => 0

/-- The most bytes that one byte of a stream decodes to. -/
def maxDeflateExpansion : ℕ := 1032

def cUintMax : ℕ := 2 ^ 32 - 1

/-- How a stream is decoded. -/
inductive DeflateMode where
  /-- One call, with a window of this length. -/
  | complete (length : ℕ)
  /-- Calls with a growing window. -/
  | streaming (reservation : ℕ) (limit : Option ℕ)
deriving DecidableEq, Repr

/-- One call suffices if the whole output and a byte to detect more are reserved. -/
def DeflateMode.parse (maxOutput : Option ℕ) (inputLen : ℕ) : DeflateMode :=
  let reservation := decodeReservation maxOutput inputLen maxDeflateExpansion
  match maxOutput with
  | some limit =>
    if reservation = limit ∧ limit + 1 ≤ usizeMax then
      if cUintMax < limit + 1 ∨ cUintMax < inputLen then .streaming reservation maxOutput
      else .complete (limit + 1)
    else .streaming reservation maxOutput
  | none => .streaming reservation maxOutput

def deflateCorrupt (reason : String) : FilterError := .filterError ("deflate: " ++ reason)

def deflateTruncated : FilterError := deflateCorrupt "stream ended before the chunk was complete"

section Decode

variable (z : Zlib)

def decompressComplete (data : Bytes) (length : ℕ) (window : OutputWindow) :
    Except FilterError (ℕ × OutputWindow) :=
  let limit := length - 1
  let window := window.resize length
  let call := z.decompress z.new data window.stop .finish
  let produced := z.totalOut call.decoder
  if produced > limit then .error (.deflateSizeExceeded limit length)
  else
    match call.status with
    | .error e => .error (deflateCorrupt e)
    | .ok status =>
      if status ≠ .streamEnd then .error deflateTruncated
      else .ok (produced, window.writeAt 0 call.out)

def deflateGrowthFloor : ℕ := 4096

def deflateBomb (maxOutput : Option ℕ) : FilterError :=
  .deflateSizeExceeded (maxOutput.getD usizeMax) (saturatingAdd (maxOutput.getD usizeMax) 1)

def grownStop (ceiling : Option ℕ) (stop : ℕ) : ℕ :=
  let want := max stop deflateGrowthFloor
  let growth :=
    match ceiling with
    | some cap => min want (cap - stop)
    | none => want
  saturatingAdd stop growth

/-- Decodes until the stream ends. The first argument bounds the number of calls. -/
def decompressLoop (data : Bytes) (maxOutput : Option ℕ) :
    ℕ → z.Decoder → ℕ → OutputWindow → Except FilterError (ℕ × OutputWindow)
  | 0, _, _, _ => .error (.pipeline (.internal "deflate decoder does not stop"))
  | fuel + 1, decoder, produced, window =>
    if window.stop < produced then
      .error (.pipeline (.internal "deflate output count exceeds its writable range"))
    else
      let input := data.drop (z.totalIn decoder)
      let call := z.decompress decoder input (window.stop - produced) .none
      match call.status with
      | .error e => .error (deflateCorrupt e)
      | .ok status =>
        let window := window.writeAt produced call.out
        let produced' := z.totalOut call.decoder
        if status = .streamEnd then
          if maxOutput.any (· < produced') then .error (deflateBomb maxOutput)
          else .ok (produced', window)
        else if produced' = window.stop then
          -- one past the limit lets the decoder detect an overlong stream
          let ceiling := maxOutput.map (saturatingAdd · 1)
          if ceiling.any (· ≤ produced') then .error (deflateBomb maxOutput)
          else
            decompressLoop data maxOutput fuel call.decoder produced'
              (window.resize (grownStop ceiling window.stop))
        else if z.totalIn call.decoder = z.totalIn decoder ∧ produced' = produced then
          .error deflateTruncated
        else decompressLoop data maxOutput fuel call.decoder produced' window

/-- Decodes with a growing window. Every second call reads or writes a byte. -/
def deflateDecompressStreaming (data : Bytes) (maxOutput : Option ℕ) (reservation : ℕ)
    (window : OutputWindow) : Except FilterError (ℕ × OutputWindow) :=
  decompressLoop z data maxOutput (2 * (data.length + maxOutput.getD usizeMax) + 4) z.new 0
    (window.resize reservation)

def deflateDecompressInto (data : Bytes) (maxOutput : Option ℕ) (window : OutputWindow) :
    Except FilterError (ℕ × OutputWindow) :=
  match DeflateMode.parse maxOutput data.length with
  | .complete length => decompressComplete z data length window
  | .streaming reservation limit => deflateDecompressStreaming z data limit reservation window

def deflateDecompress (current : FilterBuffer) (spare : Bytes) (maxOutput : Option ℕ) :
    Except FilterError (FilterBuffer × Bytes) :=
  current.overwrite spare fun input window => deflateDecompressInto z input maxOutput window

def deflateCompress (data : Bytes) (level : ℕ) : Bytes := z.deflate level data

end Decode

/-- The level in a filter's first parameter, six if there is none. -/
def deflateLevel (clientData : List UInt32) : Except FilterError ℕ :=
  match clientData with
  | [] => .ok 6
  | level :: _ => if level.toNat ≤ 9 then .ok level.toNat else .error (.invalidDeflateLevel level.toNat)

end Hdf5Pure.Filter
