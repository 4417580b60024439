import Hdf5Pure.Edit.Error
import Hdf5Pure.Utils.Runs

/-!
# Buffered appenders

`BufferState` (`src/appender.rs`) and the `AppendBuilder` it fills (`src/edit/append.rs`). The
dataset is a parameter: an engine that publishes elements and reports its length, any call of which
may fail. Datatypes are only compared, so they are a parameter as well.
-/

namespace Hdf5Pure.Append

open Edit (Error)

inductive LossyTailReencoding where
  | allow
  | reject
deriving DecidableEq, Repr

structure AppendOptions where
  lossyTailReencoding : LossyTailReencoding
deriving DecidableEq, Repr

def AppendOptions.new : AppendOptions := ⟨.reject⟩

/-- The bound of an extent along the appended axis. -/
inductive MaxExtent where
  | fixed (maximum : ℕ)
  | unlimited
deriving DecidableEq, Repr

/-- Whether the buffer can attempt another write. -/
inductive Lifecycle where
  | active
  /-- A write failed. -/
  | poisoned
  /-- A terminal operation consumed the buffer. -/
  | stopped
deriving DecidableEq, Repr

/-- Whether another write can follow a flush. -/
inductive FlushMode where
  | continues
  | finish
deriving DecidableEq, Repr

/-- What a session reports about a dataset that is appended to. -/
structure AppendGeometry where
  chunkElems : ℕ
  elementSize : ℕ
  currentDim : ℕ
  maximum : MaxExtent
  lossyFilters : Bool
deriving DecidableEq, Repr

/-! ## Builders -/

section Builder

variable {δ : Type}

/-- Accumulated element bytes, and the datatype of typed calls. -/
structure AppendBuilder (δ : Type) where
  raw : Bytes
  elemDt : Option δ
  dtConflict : Bool
  error : Option FormatError
  options : AppendOptions
deriving DecidableEq, Repr

/-- Typed elements: their datatype, which may be invalid, and their bytes. -/
structure Elements (δ : Type) where
  datatype : Except FormatError δ
  bytes : Bytes

namespace AppendBuilder

def withOptions (options : AppendOptions) : AppendBuilder δ := ⟨[], none, false, none, options⟩

def takeError (b : AppendBuilder δ) : Option FormatError × AppendBuilder δ :=
  (b.error, { b with error := none })

def setError (b : AppendBuilder δ) (error : FormatError) : AppendBuilder δ :=
  if b.error.isNone then { b with error := some error } else b

def head (b : AppendBuilder δ) (byteLen : ℕ) : AppendBuilder δ :=
  { b with raw := b.raw.take (min byteLen b.raw.length) }

def dropFront (b : AppendBuilder δ) (byteLen : ℕ) : AppendBuilder δ :=
  { b with raw := b.raw.drop (min byteLen b.raw.length) }

def truncate (b : AppendBuilder δ) (byteLen : ℕ) : AppendBuilder δ :=
  { b with raw := b.raw.take byteLen }

def setDt [DecidableEq δ] (b : AppendBuilder δ) (dt : δ) : AppendBuilder δ :=
  match b.elemDt with
  | some previous => if previous ≠ dt then { b with dtConflict := true } else b
  | none => { b with elemDt := some dt }

def appendRaw (b : AppendBuilder δ) (bytes : Bytes) : AppendBuilder δ :=
  { b with raw := b.raw ++ bytes }

def append [DecidableEq δ] (b : AppendBuilder δ) (data : Elements δ) : AppendBuilder δ :=
  match data.datatype with
  | .ok datatype => (b.setDt datatype).appendRaw data.bytes
  | .error error => b.setError error

end AppendBuilder

end Builder

/-! ## Engines -/

/-- A dataset of an editing session: its calls, and what was published since the appender was
created, the current length, and whether a call of `appendPrebuilt` has failed. -/
structure AppendEngine (ε δ : Type) where
  elementSize : ℕ
  sessionIsSwmr : ε → Bool
  claimForAppender : ε → Except Error Unit × ε
  checkMutable : ε → Except Error Unit × ε
  geometry : ε → Except Error AppendGeometry × ε
  appendPrebuilt : ε → AppendBuilder δ → Except Error Unit × ε
  published : ε → Bytes
  length : ε → ℕ
  failed : ε → Bool

namespace AppendEngine

variable {ε δ : Type} (engine : AppendEngine ε δ)

def Keeps (e e' : ε) : Prop :=
  engine.published e' = engine.published e ∧ engine.length e' = engine.length e ∧
    engine.failed e' = engine.failed e

/-- A call publishes the given elements from their front, all of them if it returns, and reports how
many. A query may fail, but a failed call leaves the length readable. -/
structure Lawful : Prop where
  elementSize_pos : 0 < engine.elementSize
  claim_keeps (e : ε) : engine.Keeps e (engine.claimForAppender e).2
  check_keeps (e : ε) : engine.Keeps e (engine.checkMutable e).2
  geometry_keeps (e : ε) : engine.Keeps e (engine.geometry e).2
  geometry_reports (e : ε) (g : AppendGeometry) (h : (engine.geometry e).1 = .ok g) :
    g.currentDim = engine.length e ∧ g.elementSize = engine.elementSize
  append_lands (e : ε) (head : AppendBuilder δ) (n : ℕ)
    (h : head.raw.length = n * engine.elementSize) :
    ∃ k ≤ n, engine.published (engine.appendPrebuilt e head).2 =
        engine.published e ++ head.raw.take (k * engine.elementSize) ∧
      engine.length (engine.appendPrebuilt e head).2 = engine.length e + k ∧
      ((engine.appendPrebuilt e head).1 = .ok () → k = n)
  append_ok (e : ε) (head : AppendBuilder δ) (h : (engine.appendPrebuilt e head).1 = .ok ()) :
    engine.failed (engine.appendPrebuilt e head).2 = engine.failed e
  append_error (e : ε) (head : AppendBuilder δ) (error : Error)
    (h : (engine.appendPrebuilt e head).1 = .error error) :
    engine.failed (engine.appendPrebuilt e head).2 = true ∧
      ∃ g, (engine.geometry (engine.appendPrebuilt e head).2).1 = .ok g

end AppendEngine

/-! ## Buffers -/

/-- Buffered bytes under the captured geometry and policy. The token of the session claim is left
out. -/
structure BufferState (δ : Type) where
  chunkElems : ℕ
  elementSize : ℕ
  lossyFilters : Bool
  maximum : MaxExtent
  pending : AppendBuilder δ
  lifecycle : Lifecycle
  chunkElems_pos : 0 < chunkElems

namespace BufferState

variable {ε δ : Type} (engine : AppendEngine ε δ)

def unwritten (s : BufferState δ) : Bytes := s.pending.raw

def exceedsMaximum : Error :=
  .appendInPlaceUnsupported "append exceeds the dataset's maximum first dimension"

def new (options : AppendOptions) (e : ε) : Except Error (BufferState δ) × ε :=
  match engine.geometry e with
  | (.error error, e) => (.error error, e)
  | (.ok geometry, e) =>
    if engine.sessionIsSwmr e then
      (.error (.swmrAppendUnsupported
        ("a SWMR writer cannot write a partial trailing chunk, which is what a buffered " ++
          "appender exists to do; append whole chunks with Dataset::append instead")), e)
    else if hchunk : 0 < geometry.chunkElems then
      if geometry.lossyFilters ∧ options.lossyTailReencoding = .reject ∧
          geometry.currentDim % geometry.chunkElems ≠ 0 then
        (.error (.appendInPlaceUnsupported
          ("this dataset's filter pipeline is lossy and its length is not a whole multiple " ++
            "of the chunk length, so a buffered appender's first write would have to " ++
            "re-encode already-committed values; append whole chunks from a chunk-aligned " ++
            "length instead")), e)
      else
        match engine.claimForAppender e with
        | (.error error, e) => (.error error, e)
        | (.ok (), e) =>
          (.ok
            { chunkElems := geometry.chunkElems
              elementSize := geometry.elementSize
              lossyFilters := geometry.lossyFilters
              maximum := geometry.maximum
              pending := .withOptions options
              lifecycle := .active
              chunkElems_pos := hchunk }, e)
    else (.error (.format (.invalidChunkGeometry "the append chunk length is zero")), e)

def bufferedElements (s : BufferState δ) : ℕ := s.pending.raw.length / s.elementSize

def checkUsable (s : BufferState δ) (e : ε) : Except Error Unit × ε :=
  match engine.checkMutable e with
  | (.error error, e) => (.error error, e)
  | (.ok (), e) =>
    if s.lifecycle = .poisoned then
      (.error (.appendInPlaceUnsupported
        ("this buffered appender failed a write and holds unwritten elements; read them " ++
          "back with BufferedAppender::unwritten and start a new appender")), e)
    else (.ok (), e)

def wholeElements (s : BufferState δ) : Except Error ℕ :=
  if s.pending.raw.length % s.elementSize ≠ 0 then
    .error (.appendInPlaceUnsupported
      ("the buffered byte length is not a whole number of elements; append the rest of " ++
        "the trailing element before flushing"))
  else .ok s.bufferedElements

/-- A number of elements in bytes. A `usize` has 64 bits. -/
def byteLen (s : BufferState δ) (elements : ℕ) : Except Error ℕ :=
  match checkedMul elements s.elementSize with
  | some bytes => .ok bytes
  | none => .error (.format (.offsetOverflow elements s.elementSize))

def dropLanded (s : BufferState δ) (landed : ℕ) (result : Except Error Unit) :
    Except Error Unit × BufferState δ :=
  match s.byteLen landed with
  | .error error => (.error error, s)
  | .ok bytes => (result, { s with pending := s.pending.dropFront bytes })

def writePrefix (s : BufferState δ) (e : ε) (takeElems : ℕ) :
    Except Error Unit × BufferState δ × ε :=
  match engine.geometry e with
  | (.error error, e) => (.error error, s, e)
  | (.ok geometry, e) =>
    let before := geometry.currentDim
    match s.byteLen takeElems with
    | .error error => (.error error, s, e)
    | .ok bytes =>
      match engine.appendPrebuilt e (s.pending.head bytes) with
      | (.ok (), e) =>
        let (result, s) := s.dropLanded takeElems (.ok ())
        (result, s, e)
      | (.error error, e) =>
        let s := { s with lifecycle := .poisoned }
        -- what landed is the growth of the length, if it can be read
        match engine.geometry e with
        | (.ok geometry, e) =>
          let (result, s) := s.dropLanded (min (geometry.currentDim - before) takeElems)
            (.error error)
          (result, s, e)
        | (.error _, e) =>
          let (result, s) := s.dropLanded 0 (.error error)
          (result, s, e)

def writeCompleteChunks (s : BufferState δ) (e : ε) :
    Checked (Except Error Unit × BufferState δ × ε) :=
  let avail := s.bufferedElements
  let chunkElems := s.chunkElems
  if avail < chunkElems then .ok (.ok (), s, e)
  else
    match engine.geometry e with
    | (.error error, e) => .ok (.error error, s, e)
    | (.ok geometry, e) => do
      let toBoundary := (chunkElems - geometry.currentDim % chunkElems) % chunkElems
      Checked.assert (decide (toBoundary < chunkElems ∧ toBoundary ≤ avail))
        "to_boundary < chunk_elems && to_boundary <= avail"
      let take := toBoundary + (avail - toBoundary) / chunkElems * chunkElems
      Checked.assert (decide (1 ≤ take ∧ take ≤ avail)) "(1..=avail).contains(&take)"
      .ok (s.writePrefix engine e take)

/-- Rejects pending input above a fixed maximum. -/
def checkMaximum (s : BufferState δ) (e : ε) : Except Error Unit × ε :=
  match s.maximum with
  | .unlimited => (.ok (), e)
  | .fixed maximum =>
    match engine.geometry e with
    | (.error error, e) => (.error error, e)
    | (.ok geometry, e) =>
      match checkedSub maximum geometry.currentDim with
      | none => (.error exceedsMaximum, e)
      | some remaining =>
        let available := s.bufferedElements
        if remaining < available ∨
            (available = remaining ∧ s.pending.raw.length % s.elementSize ≠ 0) then
          (.error exceedsMaximum, e)
        else (.ok (), e)

/-- Writes complete chunks, and takes new input back on an error before the write path. -/
def settle (s : BufferState δ) (e : ε) (mark : ℕ) :
    Checked (Except Error Unit × BufferState δ × ε) := do
  let (result, s, e) ←
    match s.checkMaximum engine e with
    | (.error error, e) => .ok (.error error, s, e)
    | (.ok (), e) => s.writeCompleteChunks engine e
  match result with
  | .error error =>
    if s.lifecycle = .active then
      .ok (.error error, { s with pending := s.pending.truncate mark }, e)
    else .ok (.error error, s, e)
  | .ok () => .ok (.ok (), s, e)

def append [DecidableEq δ] (s : BufferState δ) (e : ε) (data : Elements δ) :
    Checked (Except Error Unit × BufferState δ × ε) :=
  match s.checkUsable engine e with
  | (.error error, e) => .ok (.error error, s, e)
  | (.ok (), e) =>
    let mark := s.pending.raw.length
    let (error, pending) := (s.pending.append data).takeError
    let s := { s with pending := pending }
    match error with
    | some error => .ok (.error (.format error), s, e)
    | none => s.settle engine e mark

def appendRaw (s : BufferState δ) (e : ε) (bytes : Bytes) :
    Checked (Except Error Unit × BufferState δ × ε) :=
  match s.checkUsable engine e with
  | (.error error, e) => .ok (.error error, s, e)
  | (.ok (), e) =>
    let mark := s.pending.raw.length
    { s with pending := s.pending.appendRaw bytes }.settle engine e mark

/-- Refuses a flush that would leave a filtered lossy partial tail behind. -/
def checkTail (s : BufferState δ) (e : ε) (mode : FlushMode) (avail : ℕ) : Except Error Unit × ε :=
  if s.lossyFilters ∧ s.pending.options.lossyTailReencoding = .reject ∧ mode = .continues then
    match engine.geometry e with
    | (.error error, e) => (.error error, e)
    | (.ok geometry, e) =>
      let current := geometry.currentDim
      match checkedAdd current avail with
      | none => (.error (.format (.offsetOverflow current avail)), e)
      | some stop =>
        if stop % s.chunkElems ≠ 0 then
          (.error (.appendInPlaceUnsupported
            ("this dataset's filter pipeline is lossy, and flushing these elements would " ++
              "leave its length short of a chunk boundary — a later write would then have " ++
              "to re-encode already-committed values; buffer until the elements complete " ++
              "a chunk, or end the appender with BufferedAppender::finish, which writes " ++
              "the partial tail")), e)
        else (.ok (), e)
  else (.ok (), e)

def flush (s : BufferState δ) (e : ε) (mode : FlushMode) : Except Error Unit × BufferState δ × ε :=
  match s.checkUsable engine e with
  | (.error error, e) => (.error error, s, e)
  | (.ok (), e) =>
    match s.wholeElements with
    | .error error => (.error error, s, e)
    | .ok avail =>
      if avail = 0 then (.ok (), s, e)
      else
        match s.checkTail engine e mode avail with
        | (.error error, e) => (.error error, s, e)
        | (.ok (), e) => s.writePrefix engine e avail

def finish (s : BufferState δ) (e : ε) : Except Error Unit × BufferState δ × ε :=
  let (result, s, e) := s.flush engine e .finish
  (result, { s with lifecycle := .stopped }, e)

/-- What a drop does: the terminal flush of an active buffer. -/
def teardown (s : BufferState δ) (e : ε) : BufferState δ × ε :=
  let (s, e) :=
    if s.lifecycle = .active ∧ s.pending.raw ≠ [] then (s.flush engine e .finish).2 else (s, e)
  ({ s with lifecycle := .stopped }, e)

end BufferState

/-! ## Appenders -/

/-- An appender and the dataset it writes to. Once consumed it takes no further calls. -/
structure Appender (ε δ : Type) where
  state : BufferState δ
  dataset : ε
  consumed : Bool

inductive Call (δ : Type) where
  | append (data : Elements δ)
  | appendRaw (bytes : Bytes)
  | flush
  | finish
  | drop

/-- What a call returns, and whether a write failed in it. -/
structure Reply where
  result : Except Error Unit
  writeFailed : Bool

namespace Appender

variable {ε δ : Type} (engine : AppendEngine ε δ)

def replied (a : Appender ε δ) (consumed : Bool)
    (outcome : Except Error Unit × BufferState δ × ε) : Reply × Appender ε δ :=
  let (result, state, dataset) := outcome
  (⟨result, engine.failed dataset && !engine.failed a.dataset⟩, ⟨state, dataset, consumed⟩)

/-- A call. An appender that is consumed by `finish` is dropped at its end. -/
def step [DecidableEq δ] (a : Appender ε δ) : Call δ → Checked (Reply × Appender ε δ)
  | .append data => do
    let outcome ← a.state.append engine a.dataset data
    .ok (a.replied engine false outcome)
  | .appendRaw bytes => do
    let outcome ← a.state.appendRaw engine a.dataset bytes
    .ok (a.replied engine false outcome)
  | .flush => .ok (a.replied engine false (a.state.flush engine a.dataset .continues))
  | .finish =>
    let (result, state, dataset) := a.state.finish engine a.dataset
    .ok (a.replied engine true (result, state.teardown engine dataset))
  | .drop => .ok (a.replied engine true (.ok (), a.state.teardown engine a.dataset))

end Appender

end Hdf5Pure.Append
