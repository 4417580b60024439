import Hdf5Pure.Edit.Error
import Hdf5Pure.Utils.Checked
import Hdf5Pure.Utils.Fallible
import Hdf5Pure.Utils.RunMap

/-!
# Buffered writes

`BufferedWrites` (`src/image/mod.rs`): an open file and the writes not yet issued to it, as runs by
their start offset. The file is the list of its bytes. `usize` has 64 bits, so that conversions from
`u64` do not fail. A write of the operating system succeeds, or fails after some of its bytes; the
field `faults` says which, for the writes to come.
-/

namespace Hdf5Pure.Image

open Edit (Error)
open Fallible (andThen)

/-! ## Files -/

/-- The file after a write. A write past the end leaves zeros between. -/
def fileWrite (disk : Bytes) (offset : ℕ) (bytes : Bytes) : Bytes :=
  if bytes.isEmpty then disk
  else patch (disk ++ List.replicate (offset - disk.length) 0) offset bytes

def fileSetLen (disk : Bytes) (len : ℕ) : Bytes :=
  disk.take len ++ List.replicate (len - disk.length) 0

/-- Reads an exact range of a file whose recorded length is `len`. -/
def readAtHandle (disk : Bytes) (len offset n : ℕ) : Except FormatError Bytes :=
  match checkedAdd offset n with
  | none => .error (.offsetOverflow offset n)
  | some stop =>
    if len < stop then .error (.unexpectedSourceEof stop len)
    else if disk.length < stop then .error (.source "failed to fill whole buffer")
    else .ok (slice disk offset n)

def samePage (a b pageSize : ℕ) : Bool := decide (a / pageSize = b / pageSize)

/-! ## Modes -/

/-- How long a write may stay in memory. -/
inductive WriteBuffering where
  | unbuffered
  | operation (pageSize maxBytes : ℕ)
  | session (pageSize maxBytes : ℕ)
deriving DecidableEq, Repr

/-- The page size and the byte budget, `none` if nothing is buffered. -/
def WriteBuffering.budget : WriteBuffering → Option (ℕ × ℕ)
  | .unbuffered => none
  | .operation pageSize maxBytes | .session pageSize maxBytes => some (pageSize, maxBytes)

structure BufferedWrites where
  disk : Bytes
  /-- `some n` lets a write fail after `n` bytes. Writes past the list succeed. -/
  faults : List (Option ℕ)
  mode : WriteBuffering
  runs : RunMap UInt8
  pendingBytes : ℕ
  onDiskLen : ℕ

namespace BufferedWrites

def new (disk : Bytes) : BufferedWrites := ⟨disk, [], .unbuffered, .empty, 0, disk.length⟩

/-! ## The pending runs -/

/-- The runs are not empty, sorted and do not touch, after one that ends at `stop`. -/
def runsHold : Option ℕ → List (ℕ × Bytes) → Bool
  | _, [] => true
  | stop, (k, v) :: rest =>
    !v.isEmpty && !(stop.any fun e => decide (k ≤ e)) && runsHold (some (k + v.length)) rest

def invariantsHold (b : BufferedWrites) : Bool :=
  runsHold none b.runs.entries && decide ((b.runs.values.map List.length).sum = b.pendingBytes)

def runContaining (b : BufferedWrites) (offset stop : ℕ) : Option ℕ :=
  match b.runs.lastBelow (offset + 1) with
  | none => none
  | some (k, v) => if stop ≤ k + v.length then some k else none

def runEndingAt (b : BufferedWrites) (offset stop : ℕ) : Option ℕ :=
  match b.runs.lastBelow offset with
  | none => none
  | some (k, v) =>
    if k + v.length = offset ∧
        (b.runs.entries.any fun e => decide (offset ≤ e.1) && decide (e.1 ≤ stop)) = false then
      some k
    else none

/-- The start of the span to merge, and its end as far as the run before the write reaches. -/
def mergeSpan (b : BufferedWrites) (offset stop : ℕ) : ℕ × ℕ :=
  match b.runs.lastBelow offset with
  | none => (offset, stop)
  | some (k, v) => if offset ≤ k + v.length then (k, max stop (k + v.length)) else (offset, stop)

/-- The starts of the runs that touch a span ending at `hi`, in order, and the end of their union. -/
def touching : ℕ → List (ℕ × Bytes) → List ℕ × ℕ
  | hi, [] => ([], hi)
  | hi, (k, v) :: rest =>
    if hi < k then ([], hi)
    else
      let (absorbed, hi) := touching (max hi (k + v.length)) rest
      (k :: absorbed, hi)

/-- Moves the runs at the given starts into a buffer that begins at `lo`. -/
def gather (lo : ℕ) : List ℕ → BufferedWrites → Bytes → BufferedWrites × Bytes
  | [], b, merged => (b, merged)
  | k :: absorbed, b, merged =>
    let old := (b.runs.get? k).getD []
    gather lo absorbed
      { b with runs := b.runs.remove k, pendingBytes := b.pendingBytes - old.length }
      (patch merged (k - lo) old)

def absorb (b : BufferedWrites) (offset : ℕ) (bytes : Bytes) : BufferedWrites :=
  let stop := offset + bytes.length
  match b.runContaining offset stop with
  | some k =>
    let run := (b.runs.get? k).getD []
    { b with runs := b.runs.insert k (patch run (offset - k) bytes) }
  | none =>
    match b.runEndingAt offset stop with
    | some k =>
      let run := (b.runs.get? k).getD []
      { b with
        runs := b.runs.insert k (run ++ bytes)
        pendingBytes := b.pendingBytes + bytes.length }
    | none =>
      let (lo, hi) := b.mergeSpan offset stop
      let (absorbed, hi) := touching hi (b.runs.entries.filter fun e => decide (lo ≤ e.1))
      let (b, merged) := gather lo absorbed b (List.replicate (hi - lo) 0)
      let merged := patch merged (offset - lo) bytes
      { b with
        runs := b.runs.insert lo merged
        pendingBytes := b.pendingBytes + merged.length }

/-- Where a walk that sees every run reaching `offset` has to start. -/
def walkFrom (b : BufferedWrites) (offset : ℕ) : ℕ :=
  match b.runs.lastBelow (offset + 1) with
  | none => offset
  | some (k, _) => k

def walk (b : BufferedWrites) (offset : ℕ) : List (ℕ × Bytes) :=
  b.runs.entries.filter fun e => decide (b.walkFrom offset ≤ e.1)

def coversRuns (stop : ℕ) : ℕ → List (ℕ × Bytes) → Bool
  | reached, [] => decide (stop ≤ reached)
  | reached, (k, v) :: rest =>
    if stop ≤ reached then true
    else if reached < k then false
    else coversRuns stop (max reached (k + v.length)) rest

/-- Whether the pending runs cover `[offset, stop)`. -/
def covers (b : BufferedWrites) (offset stop : ℕ) : Bool :=
  coversRuns stop offset (b.walk offset)

/-- Copies the parts of the runs that fall into the buffer, which begins at `offset`. -/
def overlayRuns (offset : ℕ) : List (ℕ × Bytes) → Bytes → Bytes
  | [], buf => buf
  | (k, v) :: rest, buf =>
    if offset + buf.length ≤ k then buf
    else if k + v.length ≤ offset then overlayRuns offset rest buf
    else
      let start := max k offset
      let stop := min (k + v.length) (offset + buf.length)
      overlayRuns offset rest (patch buf (start - offset) (slice v (start - k) (stop - start)))

/-- Patches the pending bytes over a buffer read from `offset` on. -/
def overlay (b : BufferedWrites) (offset : ℕ) (buf : Bytes) : Bytes :=
  if b.runs.entries.isEmpty || buf.isEmpty then buf else overlayRuns offset (b.walk offset) buf

/-! ## Writes -/

def restore (b : BufferedWrites) (start : ℕ) (bytes : Bytes) : BufferedWrites :=
  { b with runs := b.runs.insert start bytes, pendingBytes := b.pendingBytes + bytes.length }

def issue (b : BufferedWrites) (offset : ℕ) (bytes : Bytes) : Except Error Unit × BufferedWrites :=
  match b.faults with
  | some n :: faults =>
    (.error .io, { b with disk := fileWrite b.disk offset (bytes.take n), faults := faults })
  | faults =>
    (.ok (), { b with
      disk := fileWrite b.disk offset bytes
      faults := faults.tail
      onDiskLen := max b.onDiskLen (offset + bytes.length) })

/-- The clean bytes between a run that ends at `gapAt` and the next one. -/
def readGap (b : BufferedWrites) (gapAt next : ℕ) : Except FormatError Bytes :=
  if gapAt < next then readAtHandle b.disk b.onDiskLen gapAt (next - gapAt) else .ok []

/-- Joins the following runs that share a page with the last byte of the run in hand. -/
def joinRuns (pageSize start : ℕ) : ℕ → Bytes → BufferedWrites → Except Error Bytes × BufferedWrites
  | 0, bytes, b => (.ok bytes, b)
  | fuel + 1, bytes, b =>
    match b.runs.popFirst with
    | none => (.ok bytes, b)
    | some ((next, tail), rest) =>
      if b.onDiskLen < next ∨ samePage (start + bytes.length - 1) next pageSize = false then
        (.ok bytes, b)
      else
        match b.readGap (start + bytes.length) next with
        | .error e => (.error (.format e), b.restore start bytes)
        | .ok gap =>
          joinRuns pageSize start fuel (bytes ++ gap ++ tail)
            { b with runs := rest, pendingBytes := b.pendingBytes - tail.length }

def issueRun (b : BufferedWrites) (start : ℕ) (bytes : Bytes) :
    Except Error Unit × BufferedWrites :=
  match b.issue start bytes with
  | (.ok (), b) => (.ok (), b)
  | (.error e, b) => (.error e, b.restore start bytes)

def flushLoop (pageSize : ℕ) : ℕ → BufferedWrites → Except Error Unit × BufferedWrites
  | 0, b => (.ok (), b)
  | fuel + 1, b =>
    match b.runs.popFirst with
    | none => (.ok (), b)
    | some ((start, bytes), rest) =>
      andThen (joinRuns pageSize start rest.entries.length bytes
          { b with runs := rest, pendingBytes := b.pendingBytes - bytes.length }) fun bytes b =>
        andThen (b.issueRun start bytes) fun _ b => flushLoop pageSize fuel b

def flush (b : BufferedWrites) : Except Error Unit × BufferedWrites :=
  flushLoop (max ((b.mode.budget.map Prod.fst).getD 1) 1) b.runs.entries.length b

/-- Drops every pending write. The file and its recorded length stay. -/
def discardPendingWrites (b : BufferedWrites) : BufferedWrites :=
  { b with runs := .empty, pendingBytes := 0 }

def writeAt (b : BufferedWrites) (offset : ℕ) (bytes : Bytes) :
    Except Error Unit × BufferedWrites :=
  if bytes.isEmpty then (.ok (), b)
  else
    match b.mode.budget with
    | none => b.issue offset bytes
    | some (_, maxBytes) =>
      if maxBytes ≤ bytes.length then andThen b.flush fun _ b => b.issue offset bytes
      else
        let b := b.absorb offset bytes
        if maxBytes < b.pendingBytes then b.flush else (.ok (), b)

/-- Whether zeros of this length are written directly, after a flush. -/
def beginZeroRange (b : BufferedWrites) (length : ℕ) : Except Error Bool × BufferedWrites :=
  let bypass := decide (length ≠ 0) && b.mode.budget.any fun budget => decide (budget.2 ≤ length)
  if bypass then andThen b.flush fun _ b => (.ok true, b) else (.ok false, b)

def writeZeroChunk (b : BufferedWrites) (offset : ℕ) (bytes : Bytes) (bypass : Bool) :
    Except Error Unit × BufferedWrites :=
  if bypass then b.issue offset bytes else b.writeAt offset bytes

def setMode (b : BufferedWrites) (mode : WriteBuffering) : Except Error Unit × BufferedWrites :=
  andThen b.flush fun _ b => (.ok (), { b with mode := mode })

def orderingBarrier (b : BufferedWrites) : Except Error Unit × BufferedWrites :=
  match b.mode with
  | .unbuffered | .session _ _ => (.ok (), b)
  | .operation _ _ => b.flush

def syncData (b : BufferedWrites) : Except Error Unit × BufferedWrites := b.flush

def syncAll (b : BufferedWrites) : Except Error Unit × BufferedWrites := b.flush

def dropRuns : List ℕ → BufferedWrites → BufferedWrites
  | [], b => b
  | k :: doomed, b =>
    let v := (b.runs.get? k).getD []
    dropRuns doomed
      { b with runs := b.runs.remove k, pendingBytes := b.pendingBytes - v.length }

def discardFrom (b : BufferedWrites) (len : ℕ) : BufferedWrites :=
  let doomed := (b.runs.entries.filter fun e => decide (len ≤ e.1)).map Prod.fst
  let b := dropRuns doomed b
  match b.runs.lastBelow len with
  | none => b
  | some (k, v) =>
    if len - k < v.length then
      { b with
        runs := b.runs.insert k (v.take (len - k))
        pendingBytes := b.pendingBytes - (v.length - (len - k)) }
    else b

/-- Resizes the file, drops the pending bytes past its end and flushes the rest. -/
def setLen (b : BufferedWrites) (len : ℕ) : Except Error Unit × BufferedWrites :=
  let b := { b with disk := fileSetLen b.disk len }
  let b := b.discardFrom len
  { b with onDiskLen := len }.flush

end BufferedWrites

end Hdf5Pure.Image
