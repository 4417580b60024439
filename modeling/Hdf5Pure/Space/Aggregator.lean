import Hdf5Pure.Space.Request

/-!
# Classic aggregators

`crates/hdf5-pure-space/src/aggregator.rs`: small metadata and raw requests are served from windows
of 2048 bytes, larger ones at the end of allocation. A method that takes `&mut self` returns its
result together with the state it leaves, also when the result is an error. The text of the errors
is not modelled.
-/

namespace Hdf5Pure.Space

open Checked

def AllocationClass.other : AllocationClass → AllocationClass
  | .metadata => .raw
  | .raw => .metadata

/-- An invalid end of allocation or an overflowing aggregate extent. -/
inductive AggregationError where
  | endOfAllocationTooSmall (eoa minimum : ℕ)
  | offsetOverflow (offset length : ℕ)
deriving DecidableEq, Repr

/-- A window and the position up to which it is consumed. -/
structure Aggregate where
  range : Extent
  cursor : ℕ
deriving DecidableEq, Repr

def aggregateBlockSize : ℕ := 2048

namespace Aggregate

def take (window : Aggregate) (size : ℕ) : Checked (Except AggregationError Extent × Aggregate) :=
  match Extent.new window.cursor size with
  | none => .ok (.error (.offsetOverflow window.cursor size), window)
  | some extent => do
    assert (decide (extent.stop ≤ window.range.stop)) "allocation exceeds its aggregate"
    .ok (.ok extent, { window with cursor := extent.stop })

def unused (window : Aggregate) : Option Extent := Extent.between window.cursor window.range.stop

end Aggregate

/-- The windows for metadata and raw data. -/
structure ClassicAggregators where
  metadata : Option Aggregate
  raw : Option Aggregate
deriving DecidableEq, Repr

/-- A reserved extent, the end of allocation it requires, and what is left of a replaced window. -/
structure AggregationAllocation where
  extent : Extent
  eoa : ℕ
  released : Option Extent
deriving DecidableEq, Repr

/-- The unused interior extents of cleared windows and the end of allocation. -/
structure AggregationRelease where
  metadata : Option Extent
  raw : Option Extent
  eoa : ℕ
deriving DecidableEq, Repr

namespace ClassicAggregators

def new : ClassicAggregators := ⟨none, none⟩

def window (aggregators : ClassicAggregators) : AllocationClass → Option Aggregate
  | .metadata => aggregators.metadata
  | .raw => aggregators.raw

def setWindow (aggregators : ClassicAggregators) (allocationClass : AllocationClass)
    (window : Option Aggregate) : ClassicAggregators :=
  match allocationClass with
  | .metadata => { aggregators with metadata := window }
  | .raw => { aggregators with raw := window }

def minimumEoa (aggregators : ClassicAggregators) : ℕ :=
  max ((aggregators.metadata.map fun window => window.range.stop).getD 0)
    ((aggregators.raw.map fun window => window.range.stop).getD 0)

def unused (aggregators : ClassicAggregators) (allocationClass : AllocationClass) : Option Extent :=
  (aggregators.window allocationClass).bind Aggregate.unused

/-- Gives back the tail of the other class's window if it ends the file and has supplied a full
block. -/
def giveBackOther (aggregators : ClassicAggregators) (eoa : ℕ) (allocationClass : AllocationClass) :
    ℕ × ClassicAggregators :=
  match aggregators.window allocationClass.other with
  | none => (eoa, aggregators)
  | some window =>
    if window.range.stop = eoa ∧
        (checkedSub window.cursor window.range.start).any fun length =>
          decide (aggregateBlockSize ≤ length) then
      match window.unused with
      | some unused => (unused.start, aggregators.setWindow allocationClass.other none)
      | none => (eoa, aggregators)
    else (eoa, aggregators)

/-- `reserve` without the own window: a large request goes to the end of allocation, a small one to
a new window. -/
def reserveAtEoa (aggregators : ClassicAggregators) (eoa : ℕ) (size : ℕ+)
    (allocationClass : AllocationClass) :
    Checked (Except AggregationError AggregationAllocation × ClassicAggregators) :=
  let (eoa, aggregators) := aggregators.giveBackOther eoa allocationClass
  if aggregateBlockSize ≤ (size : ℕ) then
    match Extent.new eoa size with
    | none => .ok (.error (.offsetOverflow eoa size), aggregators)
    | some extent => .ok (.ok ⟨extent, extent.stop, none⟩, aggregators)
  else
    match Extent.new eoa aggregateBlockSize with
    | none => .ok (.error (.offsetOverflow eoa aggregateBlockSize), aggregators)
    | some range => do
      let released := aggregators.unused allocationClass
      let (result, window) ← (⟨range, eoa⟩ : Aggregate).take size
      match result with
      | .error error => .ok (.error error, aggregators)
      | .ok extent =>
        .ok (.ok ⟨extent, range.stop, released⟩,
          aggregators.setWindow allocationClass (some window))

/-- Reserves space from the own window, by growing it, or at the end of allocation. -/
def reserve (aggregators : ClassicAggregators) (eoa : ℕ) (size : ℕ+)
    (allocationClass : AllocationClass) :
    Checked (Except AggregationError AggregationAllocation × ClassicAggregators) :=
  match aggregators.window allocationClass with
  | none => aggregators.reserveAtEoa eoa size allocationClass
  | some window =>
    if (size : ℕ) ≤ (window.unused.map Extent.len).getD 0 then do
      let (result, window) ← window.take size
      .ok (result.map (⟨·, eoa, none⟩), aggregators.setWindow allocationClass (some window))
    else if window.range.stop = eoa then
      let growth := if aggregateBlockSize ≤ (size : ℕ) then (size : ℕ) else aggregateBlockSize
      match checkedAdd eoa growth with
      | none => .ok (.error (.offsetOverflow eoa growth), aggregators)
      | some stop => do
        let range ← expect (Extent.between window.range.start stop)
          "an extended aggregate retains its checked start and end"
        let (result, window) ← ({ window with range := range } : Aggregate).take size
        .ok (result.map (⟨·, stop, none⟩), aggregators.setWindow allocationClass (some window))
    else aggregators.reserveAtEoa eoa size allocationClass

/-- Reserves `size` bytes of a class. The windows are replaced only if that succeeds. -/
def allocate (aggregators : ClassicAggregators) (eoa : ℕ) (size : ℕ+)
    (allocationClass : AllocationClass) :
    Checked (Except AggregationError AggregationAllocation × ClassicAggregators) :=
  let minimum := aggregators.minimumEoa
  if eoa < minimum then .ok (.error (.endOfAllocationTooSmall eoa minimum), aggregators)
  else do
    let (result, next) ← aggregators.reserve eoa size allocationClass
    match result with
    | .error error => .ok (.error error, aggregators)
    | .ok allocation => .ok (.ok allocation, next)

/-- Drops a window whose unused part ends the file. -/
def trimTail (eoa : ℕ) (window : Option Aggregate) : ℕ × Option Aggregate :=
  match window.bind Aggregate.unused with
  | none => (eoa, window)
  | some unused => if unused.stop = eoa then (unused.start, none) else (eoa, window)

/-- Releases unused tails that end the file. Returns the end of allocation after that. -/
def releaseTail (aggregators : ClassicAggregators) (eoa : ℕ) :
    Except AggregationError ℕ × ClassicAggregators :=
  let minimum := aggregators.minimumEoa
  if eoa < minimum then (.error (.endOfAllocationTooSmall eoa minimum), aggregators)
  else
    let (eoa, metadata) := trimTail eoa aggregators.metadata
    let (eoa, raw) := trimTail eoa aggregators.raw
    (.ok eoa, ⟨metadata, raw⟩)

/-- Releases unused extents and clears both windows. -/
def reset (aggregators : ClassicAggregators) (eoa : ℕ) :
    Except AggregationError AggregationRelease × ClassicAggregators :=
  let (result, next) := aggregators.releaseTail eoa
  match result with
  | .error error => (.error error, aggregators)
  | .ok eoa => (.ok ⟨next.unused .metadata, next.unused .raw, eoa⟩, new)

def unusedEnd (window : Option Aggregate) : ℕ :=
  ((window.filter fun window => window.unused.isSome).map fun window => window.range.stop).getD 0

def forgetBeyond (eoa : ℕ) (window : Option Aggregate) : Option Aggregate :=
  window.filter fun window => decide (window.range.stop ≤ eoa)

/-- Forgets consumed windows that extend beyond `eoa`. -/
def reconcileEoa (aggregators : ClassicAggregators) (eoa : ℕ) :
    Except AggregationError Unit × ClassicAggregators :=
  let minimum := max (unusedEnd aggregators.metadata) (unusedEnd aggregators.raw)
  if eoa < minimum then (.error (.endOfAllocationTooSmall eoa minimum), aggregators)
  else
    (.ok (), ⟨forgetBeyond eoa aggregators.metadata, forgetBeyond eoa aggregators.raw⟩)

end ClassicAggregators

end Hdf5Pure.Space
