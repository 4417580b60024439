import Hdf5Pure.Filter.Buffer
import Hdf5Pure.Filter.BitPacking

/-!
# The Scale-Offset filter

`crates/hdf5-pure-filter/src/scaleoffset/mod.rs`. Integer mode packs offsets from the minimum of a
chunk. An encoded chunk has a header of 21 bytes, then packed offsets, or the elements as they are
where packing does not help. The floating-point arithmetic of D-scale mode is a parameter.
-/

namespace Hdf5Pure.Filter

/-! ## Parameters -/

namespace ScaleOffset

def parmScaletype : ℕ := 0
def parmScalefactor : ℕ := 1
def parmNelmts : ℕ := 2
def parmClass : ℕ := 3
def parmSize : ℕ := 4
def parmSign : ℕ := 5
def parmOrder : ℕ := 6
def parmFilavail : ℕ := 7
def parmFilval : ℕ := 8
def totalNparms : ℕ := 20
def coreNparms : ℕ := parmFilval

def soFloatDscale : UInt32 := 0
def soFloatEscale : UInt32 := 1
def soInt : UInt32 := 2

def clsInteger : UInt32 := 0
def clsFloat : UInt32 := 1

def sgnNone : UInt32 := 0
def sgn2 : UInt32 := 1

def orderLe : UInt32 := 0
def orderBe : UInt32 := 1

def fillUndefined : UInt32 := 0
def fillDefined : UInt32 := 1

/-- The number of bytes before a chunk's packed offsets. -/
def headerLen : ℕ := 21

/-- Integer packing or decimal scaling. -/
inductive Mode where
  | integer (minbits : UInt32)
  | floatDScale (decimals : Int32)
deriving DecidableEq

inductive ByteOrder where
  | bigEndian
  | littleEndian
deriving DecidableEq, Repr

def ByteOrder.code : ByteOrder → UInt32
  | littleEndian => orderLe
  | bigEndian => orderBe

/-- The scalar class, sign and byte order of the elements. -/
structure ScalarType where
  scalarClass : UInt32
  sign : UInt32
  order : UInt32
deriving DecidableEq, Repr

namespace ScalarType

def integer (signed : Bool) (order : ByteOrder) : ScalarType :=
  ⟨clsInteger, if signed then sgn2 else sgnNone, order.code⟩

def floating (order : ByteOrder) : ScalarType := ⟨clsFloat, sgnNone, order.code⟩

end ScalarType

/-- Fill availability, and the element bytes if they are not zero. -/
inductive Fill where
  | defined (bytes : Option Bytes)
  | undefined
deriving DecidableEq, Repr

/-! ## Element values -/

def readValue (chunk : Bytes) (size : ℕ) (order : UInt32) : ℕ :=
  if order = orderLe then leNat (chunk.take size) else beNat (chunk.take size)

def writeValue (bits size : ℕ) (order : UInt32) : Bytes :=
  let le := leBytes 8 bits
  if order = orderLe then le.take size else (le.take size).reverse

def asSigned (width bits : ℕ) : ℤ := if bits < 2 ^ (width - 1) then bits else bits - 2 ^ width

/-- The signed value of a `size`-byte element. -/
def signExtend (bits size : ℕ) : ℤ :=
  if 8 ≤ size then asSigned 64 bits
  else
    let shift := 64 - size * 8
    asSigned 64 (bits <<< shift % 2 ^ 64) >>> shift

def sentinel (minbits : ℕ) : ℕ := 2 ^ minbits - 1

/-- Stores the bytes of a fill value from `off` on, four in an entry. -/
def writeFillFrom (bits size : ℕ) : ℕ → ℕ → ℕ → List UInt32 → List UInt32
  | 0, _, _, cd => cd
  | fuel + 1, off, idx, cd =>
    if off < size then
      let take := min (size - off) 4
      let entry := ((leBytes 8 bits).drop off).take take
      writeFillFrom bits size fuel (off + take) (idx + 1) (cd.set idx (UInt32.ofNat (leNat entry)))
    else cd

def writeFillBits (cd : List UInt32) (bits size : ℕ) : List UInt32 :=
  writeFillFrom bits size size 0 parmFilval cd

def readFillFrom (cd : List UInt32) (size : ℕ) : ℕ → ℕ → ℕ → Bytes
  | 0, _, _ => []
  | fuel + 1, off, idx =>
    if off < size then
      let take := min (size - off) 4
      (leBytes 4 (cd.getD idx 0).toNat).take take ++ readFillFrom cd size fuel (off + take) (idx + 1)
    else []

def readFillBits (cd : List UInt32) (size : ℕ) : Except FilterError ℕ :=
  let entries := (size + 3) / 4
  if cd.length < parmFilval + entries then
    .error (.scaleOffset "scaleoffset: cd_values missing fill value")
  else .ok (leNat (readFillFrom cd size size 0 parmFilval))

/-! ## The stored parameters -/

def scaleParameters (mode : Mode) (ty : ScalarType) : Except FilterError (UInt32 × UInt32) :=
  match mode with
  | .integer minbits =>
    if ty.scalarClass = clsInteger then .ok (soInt, minbits)
    else .error (.scaleOffset "scaleoffset: integer mode requires an integer dataset")
  | .floatDScale decimals =>
    if ty.scalarClass = clsFloat then .ok (soFloatDscale, decimals.toUInt32)
    else .error
      (.scaleOffset "scaleoffset: float D-scale mode requires a floating-point dataset")

def fillBits (bytes : Option Bytes) (width : ℕ) (order : UInt32) : Except FilterError ℕ :=
  match bytes with
  | none => .ok 0
  | some b =>
    if b.length = width then .ok (readValue b width order)
    else .error (.scaleOffset
      s!"scaleoffset: fill value is {b.length} bytes for a {width}-byte datatype")

def buildCdValues (mode : Mode) (ty : ScalarType) (size nelmts : UInt32) (fill : Fill) :
    Except FilterError (List UInt32) := do
  let (scaleType, scaleFactor) ← scaleParameters mode ty
  if size = 0 ∨ 8 < size then
    .error (.scaleOffset s!"scaleoffset: unsupported datatype size {size}")
  else
    let cd := [scaleType, scaleFactor, nelmts, ty.scalarClass, size, ty.sign, ty.order] ++
      List.replicate (totalNparms - 7) 0
    match fill with
    | .undefined => .ok (cd.set parmFilavail fillUndefined)
    | .defined bytes =>
      let bits ← fillBits bytes size.toNat ty.order
      .ok (writeFillBits (cd.set parmFilavail fillDefined) bits size.toNat)

/-- The parameters that both directions share. -/
structure Parms where
  scaleType : UInt32
  scaleFactor : ℤ
  nelmts : ℕ
  scalarClass : UInt32
  size : ℕ
  order : UInt32
  filavail : UInt32
deriving DecidableEq, Repr

namespace Parms

def parse (cd : List UInt32) : Except FilterError Parms :=
  if cd.length < coreNparms then .error (.scaleOffset "scaleoffset: too few cd_values")
  else
    let scalarClass := cd.getD parmClass 0
    if scalarClass ≠ clsInteger ∧ scalarClass ≠ clsFloat then
      .error (.scaleOffset "scaleoffset: unsupported datatype class")
    else
      let size := (cd.getD parmSize 0).toNat
      if size = 0 ∨ 8 < size then .error (.scaleOffset "scaleoffset: unsupported datatype size")
      else if scalarClass = clsFloat ∧ size ≠ 4 ∧ size ≠ 8 then
        .error (.scaleOffset "scaleoffset: float size must be 4 or 8")
      else
        let order := cd.getD parmOrder 0
        if order ≠ orderLe ∧ order ≠ orderBe then
          .error (.scaleOffset "scaleoffset: bad byte order")
        else
          .ok { scaleType := cd.getD parmScaletype 0
                scaleFactor := asSigned 32 (cd.getD parmScalefactor 0).toNat
                nelmts := (cd.getD parmNelmts 0).toNat
                scalarClass := scalarClass
                size := size
                order := order
                filavail := cd.getD parmFilavail 0 }

def widthMask (p : Parms) : ℕ := 2 ^ (p.size * 8) - 1

end Parms

/-- Whether the chunk is stored as it is, without a header. -/
def integerScaleFactorIsFullWidth (p : Parms) : Except FilterError Bool :=
  if p.scaleType = soFloatDscale then .ok false
  else
    let typeBits := p.size * 8
    let factor := p.scaleFactor
    if factor > typeBits then
      .error (.scaleOffset
        s!"scaleoffset: requested minimum bit width {factor} exceeds the {typeBits}-bit datatype")
    else .ok (decide (factor = typeBits))

/-- The floating-point parts of the filter. -/
structure FloatScale where
  /-- The element bytes of a packed payload. -/
  reconstruct : Bytes → Parms → ℕ → ℕ → List UInt32 → Except FilterError Bytes
  /-- A bit width, a minimum and the offsets of a chunk. -/
  precompress : Bytes → Parms → Option ℕ → ℕ × ℕ × List ℕ

/-! ## Decoding -/

/-- What a stage does with its input: keeps it, restricts it, or replaces it. -/
inductive Outcome where
  | unchanged
  | view (start stop : ℕ)
  | output (bytes : Bytes)
deriving DecidableEq, Repr

def Outcome.apply (outcome : Outcome) (current : FilterBuffer) (spare : Bytes) :
    Except FilterError (FilterBuffer × Bytes) :=
  match outcome with
  | unchanged => .ok (current, spare)
  | view start stop => do
    let narrowed ← current.narrow start stop
    .ok (narrowed, spare)
  | output bytes => .ok (current.replace spare bytes)

def filval (p : Parms) (cd : List UInt32) : Except FilterError (Option ℕ) :=
  if p.filavail = fillDefined then some <$> readFillBits cd p.size else .ok none

def restore (p : Parms) (minbits minval : ℕ) (filval : Option ℕ) (d : ℕ) : ℕ :=
  match filval with
  | some fv => if d = sentinel minbits then fv else (d + minval) % 2 ^ 64 &&& p.widthMask
  | none => (d + minval) % 2 ^ 64 &&& p.widthMask

/-- The element bytes of the packed offsets from `bitPos` on. -/
def reconstructFrom (payload : Bytes) (p : Parms) (minbits minval : ℕ) (filval : Option ℕ) :
    ℕ → ℕ → Bytes
  | 0, _ => []
  | n + 1, bitPos =>
    let d := readBits payload bitPos minbits
    writeValue (restore p minbits minval filval d) p.size p.order ++
      reconstructFrom payload p minbits minval filval n (bitPos + minbits)

def reconstructInteger (payload : Bytes) (p : Parms) (minbits minval : ℕ) (cd : List UInt32) :
    Except FilterError Bytes := do
  let fill ← filval p cd
  .ok (reconstructFrom payload p minbits minval (fill.map (· &&& p.widthMask)) p.nelmts 0)

def decodePayload (float : FloatScale) (input : Bytes) (p : Parms) (cd : List UInt32)
    (minbits minval sizeOut : ℕ) : Except FilterError Outcome :=
  if minbits = p.size * 8 then
    if headerLen + sizeOut ≤ input.length then .ok (.view headerLen (headerLen + sizeOut))
    else .error (.scaleOffset "scaleoffset: chunk too short for raw payload")
  else if minbits = 0 then do
    -- a chunk without a payload has one value only
    let fill ← filval p cd
    let bits := fill.getD (minval &&& p.widthMask)
    .ok (.output (List.replicate p.nelmts (writeValue bits p.size p.order)).flatten)
  else if input.length < headerLen then
    .error (.scaleOffset "scaleoffset: chunk too short for packed payload")
  else
    let payload := input.drop headerLen
    if payload.length * 8 < p.nelmts * minbits then
      .error (.scaleOffset "scaleoffset: payload too short for packed data")
    else if p.scalarClass = clsInteger then
      .output <$> reconstructInteger payload p minbits minval cd
    else .output <$> float.reconstruct payload p minbits minval cd

def decodeChunk (float : FloatScale) (input : Bytes) (p : Parms) (cd : List UInt32)
    (sizeOut : ℕ) : Except FilterError Outcome :=
  let fullBits := p.size * 8
  if input.length < 5 then .error (.scaleOffset "scaleoffset: chunk shorter than header")
  else
    let minbits := leNat (input.take 4)
    if minbits > fullBits then .error (.scaleOffset "scaleoffset: minbits exceeds datatype size")
    else
      let minvalSize := min (input.getD 4 0).toNat 8
      if input.length < 5 + minvalSize then
        .error (.scaleOffset "scaleoffset: chunk too short for minval")
      else
        let minval := leNat ((input.drop 5).take minvalSize)
        decodePayload float input p cd minbits minval sizeOut

/-- Decides what to do with a stored chunk, of which `maxOutput` bytes may be decoded. -/
def decode (float : FloatScale) (input : Bytes) (cd : List UInt32) (maxOutput : Option ℕ) :
    Except FilterError Outcome := do
  let p ← Parms.parse cd
  if p.scaleType = soFloatEscale then
    .error (.scaleOffset "scaleoffset: float E-scale method is not supported")
  else
    let sizeOut := p.nelmts * p.size
    let cap := maxOutput.getD sizeOut
    if sizeOut > cap then
      .error (.scaleOffset
        s!"scaleoffset: chunk declares {sizeOut} decoded bytes, more than the {cap} the chunk can hold")
    else
      let fullWidth ← integerScaleFactorIsFullWidth p
      if fullWidth then .ok .unchanged else decodeChunk float input p cd sizeOut

def decompress (float : FloatScale) (current : FilterBuffer) (spare : Bytes)
    (cd : List UInt32) (maxOutput : Option ℕ) : Except FilterError (FilterBuffer × Bytes) := do
  let outcome ← decode float current.asSlice cd maxOutput
  outcome.apply current spare

/-! ## Encoding -/

/-- Halves `val` until nothing is left. Returns the number of halvings but one, and its power. -/
def log2Loop : ℕ → ℕ → ℕ → ℕ → ℕ × ℕ
  | 0, _, v, lowerBound => (v, lowerBound)
  | fuel + 1, val, v, lowerBound =>
    if val >>> 1 = 0 then (v, lowerBound)
    else log2Loop fuel (val >>> 1) (v + 1) (lowerBound <<< 1)

def ceilLog2 (num : ℕ) : ℕ :=
  let (v, lowerBound) := log2Loop 64 num 0 1
  if num = lowerBound then v else v + 1

def readAsI128 (input : Bytes) (p : Parms) (signed : Bool) (i : ℕ) : ℤ :=
  let bits := readValue ((input.drop (i * p.size)).take p.size) p.size p.order
  if signed then signExtend bits p.size else bits

/-- The fill value, compared the way the elements are read. -/
def fillAsI128 (p : Parms) (signed : Bool) (bits : ℕ) : ℤ :=
  if signed then signExtend bits p.size else (bits &&& p.widthMask : ℕ)

def widen (range : ℤ × ℤ) (v : ℤ) : ℤ × ℤ :=
  (if v < range.1 then v else range.1, if range.2 < v then v else range.2)

def widenUnless (fv : ℤ) (range : Option (ℤ × ℤ)) (v : ℤ) : Option (ℤ × ℤ) :=
  if v = fv then range
  else
    match range with
    | none => some (v, v)
    | some range => some (widen range v)

/-- The smallest and the largest value, fill values apart; zeros if there is no other. -/
def valueRange (values : List ℤ) (fill : Option ℤ) : ℤ × ℤ :=
  match fill with
  | none =>
    match values with
    | [] => (0, 0)
    | first :: rest => rest.foldl widen (first, first)
  | some fv => (values.foldl (widenUnless fv) none).getD (0, 0)

def codeCount (spread : ℕ) (fill : Option ℤ) : ℕ :=
  let span := spread + 1
  if fill.isSome then span + 1 else span

def offsetsFrom (p : Parms) (signed : Bool) (values : List ℤ) (fill : Option ℤ) (range : ℤ × ℤ) :
    ℕ × ℕ × List ℕ :=
  let fullBits := p.size * 8
  let minval := (range.1 % 2 ^ 64).toNat
  let spread := (range.2 - range.1).toNat
  if spread > p.widthMask - 2 then
    -- only signed bytes without a fill value keep the minimum here
    (fullBits, if signed ∧ p.size = 1 ∧ fill = none then minval else 0, [])
  else
    let minbits := ceilLog2 (codeCount spread fill)
    if minbits ≥ fullBits then (fullBits, minval, [])
    else
      (minbits, minval, values.map fun v =>
        if some v = fill then sentinel minbits else (v - range.1).toNat)

/-- A bit width, a minimum and the offsets of a chunk. -/
def precompressInteger (input : Bytes) (p : Parms) (signed : Bool) (filval : Option ℕ) :
    ℕ × ℕ × List ℕ :=
  let values := (List.range p.nelmts).map (readAsI128 input p signed)
  let fill := filval.map (fillAsI128 p signed)
  offsetsFrom p signed values fill (valueRange values fill)

def writeHeader (minbits minval : ℕ) : Bytes :=
  leBytes 4 minbits ++ [8] ++ leBytes 8 minval ++ List.replicate (headerLen - 13) 0

def emit (minbits minval : ℕ) (payload : Bytes) : Bytes :=
  writeHeader minbits minval ++ if payload = [] then [0] else payload

def emitRaw (fullBits minval : ℕ) (input : Bytes) : Bytes :=
  writeHeader fullBits minval ++ input

def emitChunk (input : Bytes) (p : Parms) (minbits minval : ℕ) (offsets : List ℕ) : Bytes :=
  if minbits ≥ p.size * 8 then emitRaw (p.size * 8) minval input
  else emit minbits minval (packOffsets offsets minbits p.nelmts)

def encodeChunk (float : FloatScale) (input : Bytes) (p : Parms) (cd : List UInt32) :
    Except FilterError Bytes :=
  if p.nelmts = 0 then .ok (emit 0 0 [])
  else do
    let signed := decide (cd.getD parmSign 0 = sgn2)
    let fill ← filval p cd
    let pre :=
      if p.scalarClass = clsInteger then precompressInteger input p signed fill
      else float.precompress input p fill
    .ok (emitChunk input p pre.1 pre.2.1 pre.2.2)

def encode (float : FloatScale) (input : Bytes) (cd : List UInt32) :
    Except FilterError Outcome := do
  let p ← Parms.parse cd
  if p.scalarClass = clsInteger ∧ p.scaleType ≠ soInt then
    .error (.scaleOffset "scaleoffset: integer class requires integer scale type")
  else if p.scalarClass = clsFloat ∧ p.scaleType ≠ soFloatDscale then
    .error (.scaleOffset "scaleoffset: float class requires D-scale scale type")
  else
    let fullWidth ← integerScaleFactorIsFullWidth p
    if fullWidth then .ok .unchanged
    else if input.length ≠ p.nelmts * p.size then
      .error (.scaleOffset "scaleoffset: chunk size does not match nelmts * datatype size")
    else .output <$> encodeChunk float input p cd

def compress (float : FloatScale) (current : FilterBuffer) (spare : Bytes)
    (cd : List UInt32) : Except FilterError (FilterBuffer × Bytes) := do
  let outcome ← encode float current.asSlice cd
  outcome.apply current spare

end ScaleOffset

end Hdf5Pure.Filter
