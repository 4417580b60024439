import Hdf5Pure.Image.Buffered
import Hdf5Pure.Image.MetadataCache

/-!
# File images

`HandleImage` reads the file and overlays the pending writes, `MirrorImage` keeps a copy of the whole
file (`src/image/mod.rs`, `src/image/zeros/mod.rs`). The third image, a plain list of bytes, is what
both stand for. Slice indexing and debug assertions that fail are panics.
-/

namespace Hdf5Pure.Image

open Edit (Error)

/-! ## Zero ranges -/

/-- Whether a range that is not empty starts at the end of the image. -/
def appends (start length len : ℕ) : Except Error Bool :=
  if length = 0 then .ok false
  else if start = len then .ok true
  else if len < start + length then
    .error (.format (.unexpectedSourceEof (start + length) len))
  else .ok false

def zeroBatchBytes : ℕ := 64 * 1024

def scratchLength (length : ℕ) : ℕ := min length zeroBatchBytes

def emitLoop {σ : Type} (write : ℕ → Bytes → σ → Checked (Except Error Unit × σ))
    (stop scratch : ℕ) : ℕ → ℕ → σ → Checked (Except Error Unit × σ)
  | 0, _, s => .ok (.ok (), s)
  | fuel + 1, offset, s =>
    if offset < stop then do
      let length := min (stop - offset) scratch
      match ← write offset (List.replicate length 0) s with
      | (.error e, s) => .ok (.error e, s)
      | (.ok (), s) => emitLoop write stop scratch fuel (offset + length) s
    else .ok (.ok (), s)

def emit {σ : Type} (write : ℕ → Bytes → σ → Checked (Except Error Unit × σ))
    (start length : ℕ) (s : σ) : Checked (Except Error Unit × σ) :=
  if length = 0 then .ok (.ok (), s)
  else emitLoop write (start + length) (scratchLength length) length start s

/-! ## The image without a mirror -/

structure HandleImage where
  writes : BufferedWrites
  len : ℕ
  metadataCache : Option (MetadataCacheConfig × MetadataReadCache)

namespace HandleImage

def new (disk : Bytes) (cache : MetadataCacheConfig) : HandleImage where
  writes := .new disk
  len := disk.length
  metadataCache := if cache.isEnabled then some (cache, .new) else none

/-- Drops the cached reads that overlap a range. -/
def invalidate (image : HandleImage) (offset len : ℕ) : HandleImage :=
  { image with
    metadataCache := image.metadataCache.map fun (config, cache) =>
      (config, cache.invalidateOverlapping offset len) }

def readAt (image : HandleImage) (offset n : ℕ) : Checked (Except FormatError Bytes) :=
  match checkedAdd offset n with
  | none => .ok (.error (.offsetOverflow offset n))
  | some stop =>
    if image.len < stop then .ok (.error (.unexpectedSourceEof stop image.len))
    else
      let onDisk := image.writes.onDiskLen
      let diskEnd := max offset (min onDisk stop)
      let take := diskEnd - offset
      match if 0 < take then readAtHandle image.writes.disk onDisk offset take else .ok [] with
      | .error e => .ok (.error e)
      | .ok bytes => do
        Checked.assert (decide (stop ≤ diskEnd) || image.writes.covers diskEnd stop)
          (s!"read of [{offset}, {stop}) reaches past the file's {onDisk} bytes into a " ++
            "range no pending write covers, so it would return zeros")
        .ok (.ok (image.writes.overlay offset (bytes ++ List.replicate (n - take) 0)))

def readExactAt (image : HandleImage) (offset n : ℕ) : Checked (Except FormatError Bytes) :=
  match checkedAdd offset n with
  | none => .ok (.error (.offsetOverflow offset n))
  | some stop =>
    if image.len < stop then .ok (.error (.unexpectedSourceEof stop image.len))
    else image.readAt offset n

/-- Owned bytes at an offset. A vector of `n` bytes has the capacity `capacity n`. -/
def fromVec (capacity : ℕ → ℕ) (offset : ℕ) (bytes : Bytes) : Except FormatError MetadataBytes :=
  match checkedAdd offset bytes.length with
  | none => .error (.offsetOverflow offset bytes.length)
  | some _ => .ok ⟨bytes, some (capacity bytes.length)⟩

/-- Reads through the cache. The file is read at a miss only, which the result does not show. -/
def readMetadata (capacity : ℕ → ℕ) (image : HandleImage) (offset len : ℕ) :
    Checked (Except FormatError MetadataBytes × HandleImage) := do
  let bytes ← image.readExactAt offset len
  let read := bytes.bind fun bytes => fromVec capacity offset bytes
  match image.metadataCache with
  | none => .ok (read, image)
  | some (config, cache) =>
    let (r, cache) := cache.readThrough config offset len read
    .ok (r, { image with metadataCache := some (config, cache) })

def append (image : HandleImage) (bytes : Bytes) : Checked (Except Error ℕ × HandleImage) :=
  let addr := image.len
  let image := image.invalidate addr bytes.length
  match image.writes.writeAt addr bytes with
  | (.error e, writes) => .ok (.error e, { image with writes := writes })
  | (.ok (), writes) => do
    let len ← Checked.expect (checkedAdd image.len bytes.length) "attempt to add with overflow"
    .ok (.ok addr, { image with writes := writes, len := len })

def writeAt (image : HandleImage) (offset : ℕ) (bytes : Bytes) : Except Error Unit × HandleImage :=
  match checkedAdd offset bytes.length with
  | none => (.error (.format (.offsetOverflow offset bytes.length)), image)
  | some stop =>
    if image.len < stop then (.error (.format (.unexpectedSourceEof stop image.len)), image)
    else
      let image := image.invalidate offset bytes.length
      let (r, writes) := image.writes.writeAt offset bytes
      (r, { image with writes := writes })

def writeZeros (append bypass : Bool) (offset : ℕ) (bytes : Bytes) (image : HandleImage) :
    Checked (Except Error Unit × HandleImage) :=
  let image := image.invalidate offset bytes.length
  match image.writes.writeZeroChunk offset bytes bypass with
  | (.error e, writes) => .ok (.error e, { image with writes := writes })
  | (.ok (), writes) =>
    if append then do
      let len ← Checked.expect (checkedAdd image.len bytes.length) "attempt to add with overflow"
      .ok (.ok (), { image with writes := writes, len := len })
    else .ok (.ok (), { image with writes := writes })

def fillZeros (image : HandleImage) (start length : ℕ) :
    Checked (Except Error Unit × HandleImage) :=
  match appends start length image.len with
  | .error e => .ok (.error e, image)
  | .ok append =>
    match image.writes.beginZeroRange length with
    | (.error e, writes) => .ok (.error e, { image with writes := writes })
    | (.ok bypass, writes) =>
      emit (writeZeros append bypass) start length { image with writes := writes }

def truncate (image : HandleImage) (len : ℕ) : Checked (Except Error Unit × HandleImage) := do
  let old := image.len
  Checked.assert (decide (len ≤ old))
    s!"truncate would grow the image: {len} > {old}"
  let image := image.invalidate len (old - len)
  match image.writes.setLen len with
  | (.error e, writes) => .ok (.error e, { image with writes := writes })
  | (.ok (), writes) => .ok (.ok (), { image with writes := writes, len := len })

end HandleImage

/-! ## The image with a mirror -/

structure MirrorImage where
  writes : BufferedWrites
  data : Bytes

namespace MirrorImage

def new (disk : Bytes) : MirrorImage := ⟨.new disk, disk⟩

def copyInto (data : Bytes) (start : ℕ) (bytes : Bytes) : Checked Bytes :=
  let stop := start + bytes.length
  let len := data.length
  if stop ≤ len then .ok (patch data start bytes)
  else .error ⟨s!"range end index {stop} out of range for slice of length {len}"⟩

def bytesIn (data : Bytes) (offset n : ℕ) : Except FormatError Bytes :=
  match checkedAdd offset n with
  | none => .error (.offsetOverflow offset n)
  | some stop =>
    if data.length < stop then .error (.unexpectedSourceEof stop data.length)
    else .ok (slice data offset n)

def readAt (image : MirrorImage) (offset n : ℕ) : Except FormatError Bytes :=
  bytesIn image.data offset n

def readExactAt (image : MirrorImage) (offset n : ℕ) : Except FormatError Bytes :=
  match checkedAdd offset n with
  | none => .error (.offsetOverflow offset n)
  | some stop =>
    if image.data.length < stop then .error (.unexpectedSourceEof stop image.data.length)
    else image.readAt offset n

def readMetadata (image : MirrorImage) (offset len : ℕ) : Except FormatError MetadataBytes :=
  (bytesIn image.data offset len).map fun bytes => ⟨bytes, none⟩

def append (image : MirrorImage) (bytes : Bytes) : Except Error ℕ × MirrorImage :=
  let addr := image.data.length
  match image.writes.writeAt addr bytes with
  | (.error e, writes) => (.error e, { image with writes := writes })
  | (.ok (), writes) => (.ok addr, ⟨writes, image.data ++ bytes⟩)

def writeAt (image : MirrorImage) (offset : ℕ) (bytes : Bytes) :
    Checked (Except Error Unit × MirrorImage) := do
  let n := bytes.length
  let len := image.data.length
  Checked.assert (decide (saturatingAdd offset n ≤ len))
    s!"write_at past end-of-file: {offset}+{n} > {len}"
  match image.writes.writeAt offset bytes with
  | (.error e, writes) => .ok (.error e, { image with writes := writes })
  | (.ok (), writes) => do
    let data ← copyInto image.data offset bytes
    .ok (.ok (), ⟨writes, data⟩)

def writeZeros (append bypass : Bool) (offset : ℕ) (bytes : Bytes) (image : MirrorImage) :
    Checked (Except Error Unit × MirrorImage) :=
  match image.writes.writeZeroChunk offset bytes bypass with
  | (.error e, writes) => .ok (.error e, { image with writes := writes })
  | (.ok (), writes) =>
    if append then .ok (.ok (), ⟨writes, image.data ++ bytes⟩)
    else do
      let data ← copyInto image.data offset bytes
      .ok (.ok (), ⟨writes, data⟩)

def fillZeros (image : MirrorImage) (start length : ℕ) :
    Checked (Except Error Unit × MirrorImage) :=
  match appends start length image.data.length with
  | .error e => .ok (.error e, image)
  | .ok append =>
    match image.writes.beginZeroRange length with
    | (.error e, writes) => .ok (.error e, { image with writes := writes })
    | (.ok bypass, writes) =>
      emit (writeZeros append bypass) start length { image with writes := writes }

def truncate (image : MirrorImage) (len : ℕ) : Checked (Except Error Unit × MirrorImage) := do
  let old := image.data.length
  Checked.assert (decide (len ≤ old)) s!"truncate would grow the image: {len} > {old}"
  match image.writes.setLen len with
  | (.error e, writes) => .ok (.error e, { image with writes := writes })
  | (.ok (), writes) => .ok (.ok (), ⟨writes, image.data.take len⟩)

end MirrorImage

/-! ## Operations -/

/-- The operations that may write pending bytes to the file and change none. -/
inductive Drain where
  | flush
  | orderingBarrier
  | syncData
  | syncAll
  | setWriteBuffering (mode : WriteBuffering)
deriving DecidableEq, Repr

def Drain.run (b : BufferedWrites) : Drain → Except Error Unit × BufferedWrites
  | .flush => b.flush
  | .orderingBarrier => b.orderingBarrier
  | .syncData => b.syncData
  | .syncAll => b.syncAll
  | .setWriteBuffering mode => b.setMode mode

/-- The operations on an image. Writes inside a drain may fail as `faults` says. -/
inductive ImageOp where
  | append (bytes : Bytes)
  | writeAt (offset : ℕ) (bytes : Bytes)
  | fillZeros (start length : ℕ)
  | truncate (len : ℕ)
  | drain (drain : Drain) (faults : List (Option ℕ))
  | readAt (offset n : ℕ)
  | readExactAt (offset n : ℕ)
  | readMetadata (offset len : ℕ)
deriving DecidableEq, Repr

def ImageOp.faults : ImageOp → List (Option ℕ)
  | .drain _ faults => faults
  | _ => []

/-- What an operation returns. -/
inductive ImageValue where
  | unit
  | address (addr : ℕ)
  | bytes (bytes : Bytes)
deriving DecidableEq, Repr

abbrev ImageResult := Except Error ImageValue

def readResult (r : Except FormatError Bytes) : ImageResult :=
  match r with
  | .ok bytes => .ok (.bytes bytes)
  | .error e => .error (.format e)

def BufferedWrites.drain (b : BufferedWrites) (drain : Drain) (faults : List (Option ℕ)) :
    ImageResult × BufferedWrites :=
  let (r, b) := drain.run { b with faults := faults }
  (r.map fun _ => .unit, { b with faults := [] })

def HandleImage.step (capacity : ℕ → ℕ) (image : HandleImage) :
    ImageOp → Checked (ImageResult × HandleImage)
  | .append bytes => do
    let (r, image) ← image.append bytes
    .ok (r.map .address, image)
  | .writeAt offset bytes =>
    let (r, image) := image.writeAt offset bytes
    .ok (r.map fun _ => .unit, image)
  | .fillZeros start length => do
    let (r, image) ← image.fillZeros start length
    .ok (r.map fun _ => .unit, image)
  | .truncate len => do
    let (r, image) ← image.truncate len
    .ok (r.map fun _ => .unit, image)
  | .drain drain faults =>
    let (r, writes) := image.writes.drain drain faults
    .ok (r, { image with writes := writes })
  | .readAt offset n => do
    let r ← image.readAt offset n
    .ok (readResult r, image)
  | .readExactAt offset n => do
    let r ← image.readExactAt offset n
    .ok (readResult r, image)
  | .readMetadata offset len => do
    let (r, image) ← image.readMetadata capacity offset len
    .ok (readResult (r.map MetadataBytes.bytes), image)

def MirrorImage.step (image : MirrorImage) : ImageOp → Checked (ImageResult × MirrorImage)
  | .append bytes =>
    let (r, image) := image.append bytes
    .ok (r.map .address, image)
  | .writeAt offset bytes => do
    let (r, image) ← image.writeAt offset bytes
    .ok (r.map fun _ => .unit, image)
  | .fillZeros start length => do
    let (r, image) ← image.fillZeros start length
    .ok (r.map fun _ => .unit, image)
  | .truncate len => do
    let (r, image) ← image.truncate len
    .ok (r.map fun _ => .unit, image)
  | .drain drain faults =>
    let (r, writes) := image.writes.drain drain faults
    .ok (r, { image with writes := writes })
  | .readAt offset n => .ok (readResult (image.readAt offset n), image)
  | .readExactAt offset n => .ok (readResult (image.readExactAt offset n), image)
  | .readMetadata offset len =>
    .ok (readResult ((image.readMetadata offset len).map MetadataBytes.bytes), image)

/-! ## The plain image -/

def plainRead (content : Bytes) (offset n : ℕ) : ImageResult :=
  if 2 ^ 64 ≤ offset + n then .error (.format (.offsetOverflow offset n))
  else if content.length < offset + n then
    .error (.format (.unexpectedSourceEof (offset + n) content.length))
  else .ok (.bytes (slice content offset n))

def plainStep (content : Bytes) : ImageOp → ImageResult × Bytes
  | .append bytes => (.ok (.address content.length), content ++ bytes)
  | .writeAt offset bytes => (.ok .unit, patch content offset bytes)
  | .fillZeros start length =>
    if length ≠ 0 ∧ start ≠ content.length ∧ content.length < start + length then
      (.error (.format (.unexpectedSourceEof (start + length) content.length)), content)
    else (.ok .unit, patch content start (List.replicate length 0))
  | .truncate len => (.ok .unit, content.take len)
  | .drain _ _ => (.ok .unit, content)
  | .readAt offset n | .readExactAt offset n | .readMetadata offset n =>
    (plainRead content offset n, content)

/-- The operations after which the file has every byte. A barrier keeps the writes of a session. -/
def Drain.Completes (mode : WriteBuffering) : Drain → Prop
  | .orderingBarrier => ∀ pageSize maxBytes, mode ≠ .session pageSize maxBytes
  | _ => True

def ImageOp.Completes (mode : WriteBuffering) : ImageOp → Prop
  | .drain d _ => d.Completes mode
  | _ => False

/-- Writes stay within the image, a truncation does not grow it, and ends are 64-bit offsets. -/
def Admits (content : Bytes) : ImageOp → Prop
  | .append bytes => content.length + bytes.length < 2 ^ 64
  | .writeAt offset bytes => offset + bytes.length ≤ content.length
  | .fillZeros start length => start + length < 2 ^ 64
  | .truncate len => len ≤ content.length
  | _ => True

def AdmitsAll : Bytes → List ImageOp → Prop
  | _, [] => True
  | content, op :: ops => Admits content op ∧ AdmitsAll (plainStep content op).2 ops

/-- A buffered image after an operation, against the plain one: only a fault lets the results
differ, and a completed operation leaves its bytes in the file. -/
structure Matches (op : ImageOp) (before after : BufferedWrites) (r plain : ImageResult)
    (content : Bytes) : Prop where
  result : r = plain ∨ (op.faults ≠ [] ∧ r = .error .io)
  completed : r = plain → op.Completes before.mode → after.disk = content
  invariants : after.invariantsHold = true
  covered : after.covers after.onDiskLen content.length = true

/-! ## Side by side -/

/-- Both images of one file and the bytes they stand for. -/
structure Images where
  handle : HandleImage
  mirror : MirrorImage
  content : Bytes

namespace Images

def new (disk : Bytes) (cache : MetadataCacheConfig) : Images :=
  ⟨.new disk cache, .new disk, disk⟩

/-- The results of one operation on both images and on the bytes. -/
structure Results where
  handle : ImageResult
  mirror : ImageResult
  plain : ImageResult

def step (capacity : ℕ → ℕ) (s : Images) (op : ImageOp) : Checked (Results × Images) := do
  let (handleResult, handle) ← s.handle.step capacity op
  let (mirrorResult, mirror) ← s.mirror.step op
  let (plainResult, content) := plainStep s.content op
  .ok (⟨handleResult, mirrorResult, plainResult⟩, ⟨handle, mirror, content⟩)

end Images

end Hdf5Pure.Image
