import Hdf5Pure.Edit.Error
import Hdf5Pure.Heap.Collection
import Hdf5Pure.Utils.Fallible

/-!
# Compaction through the undo journal

The journal of overwritten bytes (`src/edit/commit/rollback.rs`), the scopes that complete or restore
its writes (`src/edit/commit/rollback/scoped.rs`), and the compaction of global heap collections in
place (`src/edit/commit/heap.rs`). Of an engine, the state these read is modelled. The image is a
parameter.
-/

namespace Hdf5Pure.Heap

open Edit (Error)

/-! ## Images -/

/-- A file image: calls that may fail, and observations. `content` is what reads return, `Issued`
the positions where it does not rest on a pending write, and `Sound` the states calls are made in. -/
structure FileImage (ι : Type) where
  readAt : ℕ → ℕ → Fallible Error ι Bytes
  writeAt : ℕ → Bytes → Fallible Error ι Unit
  flush : Fallible Error ι Unit
  syncAll : Fallible Error ι Unit
  syncData : Fallible Error ι Unit
  orderingBarrier : Fallible Error ι Unit
  discardPendingWrites : ι → ι
  content : ι → Bytes
  Issued : ι → ℕ → Prop
  Sound : ι → Prop

namespace FileImage

variable {ι : Type} (img : FileImage ι)

/-- The bytes are the same, and nothing new is pending. -/
structure Keeps (i i' : ι) : Prop where
  sound : img.Sound i'
  content : img.content i' = img.content i
  issued (p : ℕ) (h : img.Issued i p) : img.Issued i' p

/-- Only the `n` bytes from `offset` on may differ. -/
structure Overwrites (offset n : ℕ) (i i' : ι) : Prop where
  sound : img.Sound i'
  length : (img.content i').length = (img.content i).length
  content (p : ℕ) (h : p < offset ∨ offset + n ≤ p) : (img.content i')[p]? = (img.content i)[p]?
  issued (p : ℕ) (h : p < offset ∨ offset + n ≤ p) (hi : img.Issued i p) : img.Issued i' p

/-- What the calls do, also when they fail: a failed write may have changed any byte of its range.
Pending writes are discarded in any state. -/
structure Lawful : Prop where
  read_keeps {i : ι} (hs : img.Sound i) (offset n : ℕ) : img.Keeps i (img.readAt offset n i).2
  read_ok {i : ι} (hs : img.Sound i) {offset n : ℕ} {bytes : Bytes}
    (h : (img.readAt offset n i).1 = .ok bytes) :
    offset + n ≤ (img.content i).length ∧ bytes = slice (img.content i) offset n
  write_overwrites {i : ι} (hs : img.Sound i) {offset : ℕ} {bytes : Bytes}
    (h : offset + bytes.length ≤ (img.content i).length) :
    img.Overwrites offset bytes.length i (img.writeAt offset bytes i).2
  write_ok {i : ι} (hs : img.Sound i) {offset : ℕ} {bytes : Bytes}
    (h : offset + bytes.length ≤ (img.content i).length)
    (hok : (img.writeAt offset bytes i).1 = .ok ()) :
    img.content (img.writeAt offset bytes i).2 = patch (img.content i) offset bytes
  flush_keeps {i : ι} (hs : img.Sound i) : img.Keeps i (img.flush i).2
  flush_ok {i : ι} (hs : img.Sound i) (h : (img.flush i).1 = .ok ()) (p : ℕ) :
    img.Issued (img.flush i).2 p
  syncAll_keeps {i : ι} (hs : img.Sound i) : img.Keeps i (img.syncAll i).2
  syncData_keeps {i : ι} (hs : img.Sound i) : img.Keeps i (img.syncData i).2
  orderingBarrier_keeps {i : ι} (hs : img.Sound i) : img.Keeps i (img.orderingBarrier i).2
  discard_length (i : ι) :
    (img.content (img.discardPendingWrites i)).length = (img.content i).length
  discard_issued {i : ι} {p : ℕ} (h : img.Issued i p) : img.Issued (img.discardPendingWrites i) p ∧
    (img.content (img.discardPendingWrites i))[p]? = (img.content i)[p]?

/-- No call within the bytes of the image fails. -/
structure Reliable : Prop where
  read_ok {i : ι} (hs : img.Sound i) {offset n : ℕ} (h : offset + n ≤ (img.content i).length) :
    ∃ bytes, (img.readAt offset n i).1 = .ok bytes
  write_ok {i : ι} (hs : img.Sound i) {offset : ℕ} {bytes : Bytes}
    (h : offset + bytes.length ≤ (img.content i).length) : (img.writeAt offset bytes i).1 = .ok ()
  flush_ok {i : ι} (hs : img.Sound i) : (img.flush i).1 = .ok ()
  syncAll_ok {i : ι} (hs : img.Sound i) : (img.syncAll i).1 = .ok ()
  orderingBarrier_ok {i : ι} (hs : img.Sound i) : (img.orderingBarrier i).1 = .ok ()

end FileImage

/-! ## Engines -/

/-- Whether allocations are published. -/
inductive AllocationState where
  | confirmed
  | provisional
  | uncertain
deriving DecidableEq, Repr

inductive SyncPolicy where
  | always
  | onClose
deriving DecidableEq, Repr

structure WriteEngine (ι : Type) where
  image : ι
  inplaceUndo : List (ℕ × Bytes)
  allocations : AllocationState
  publicationAttempted : Bool
  syncPolicy : SyncPolicy

abbrev Action (ι α : Type) := Fallible Error (WriteEngine ι) α

namespace AllocationState

def available : AllocationState → Except Error Unit
  | .uncertain => .error .allocationPublicationUncertain
  | _ => .ok ()

def beforeReference : AllocationState → Except Error Unit
  | .confirmed => .ok ()
  | .provisional => .error (.format
      (.internal "reference publication precedes allocation ownership publication"))
  | .uncertain => .error .allocationPublicationUncertain

end AllocationState

namespace WriteEngine

variable {ι : Type} (img : FileImage ι)

def onImage {α : Type} (call : Fallible Error ι α) : Action ι α := fun e =>
  let (r, image) := call e.image
  (r, { e with image := image })

def makeAllocationUncertain (e : WriteEngine ι) : WriteEngine ι :=
  { e with
    allocations := .uncertain
    image := img.discardPendingWrites e.image }

def barrier : Action ι Unit := fun e =>
  match e.syncPolicy with
  | .always => onImage img.syncAll e
  | .onClose => onImage img.orderingBarrier e

def barrierData : Action ι Unit := fun e =>
  match e.syncPolicy with
  | .always => onImage img.syncData e
  | .onClose => onImage img.orderingBarrier e

def readExactAt (offset n : ℕ) : Action ι Bytes := fun e =>
  match checkedAdd offset n with
  | none => (.error (.format (.offsetOverflow offset n)), e)
  | some stop =>
    let len := (img.content e.image).length
    if len < stop then (.error (.format (.unexpectedSourceEof stop len)), e)
    else onImage (img.readAt offset n) e

def writeInplaceJournaled (offset : ℕ) (raw : Bytes) : Action ι Unit := do
  let prior ← readExactAt img offset raw.length
  Fallible.modify fun e => { e with inplaceUndo := e.inplaceUndo ++ [(offset, prior)] }
  onImage (img.writeAt offset raw)

def undoEntries : List (ℕ × Bytes) → WriteEngine ι → Option Error × WriteEngine ι
  | [], e => (none, e)
  | (offset, prior) :: rest, e =>
    let (r, e) := onImage (img.writeAt offset prior) e
    let (failed, e) := undoEntries rest e
    match r with
    | .ok () => (failed, e)
    | .error error => (some error, e)

/-- Restores the entries from `checkpoint` on, the latest first, and keeps the earlier ones. -/
def undoInplaceSince (checkpoint : ℕ) : Action ι Unit := fun e =>
  if e.inplaceUndo.length < checkpoint then
    (.error (.format (.internal "an undo checkpoint exceeds its journal")), e)
  else
    let restored := e.inplaceUndo.drop checkpoint
    let (failed, e) := undoEntries img restored.reverse e
    let e := { e with inplaceUndo := e.inplaceUndo.take checkpoint }
    if restored.isEmpty then (.ok (), e)
    else
      match failed with
      | some error => (.error error, e)
      | none => barrierData img e

end WriteEngine

/-! ## Scopes -/

namespace JournalScope

open WriteEngine

variable {ι : Type} (img : FileImage ι)

def completeIssued (checkpoint : ℕ) (result : Except Error Unit) (retain : Bool) :
    Action ι Unit := fun e =>
  if e.inplaceUndo.length = checkpoint then (result, e)
  else
    match (Fallible.lift result >>= fun _ => onImage img.flush >>= fun _ => barrier img) e with
    | (.ok (), e) =>
      if retain then (.ok (), e)
      else (.ok (), { e with inplaceUndo := e.inplaceUndo.take checkpoint })
    | (.error refusal, e) =>
      match (undoInplaceSince img checkpoint >>= fun _ => onImage img.flush) e with
      | (.ok (), e) => (.error refusal, e)
      | (.error restore, e) =>
        (.error (.commitPartiallyApplied refusal restore), e.makeAllocationUncertain img)

/-- Applies writes and completes them. Earlier entries of the journal stay. -/
def runIssued (apply : Action ι Unit) : Action ι Unit := fun e =>
  let checkpoint := e.inplaceUndo.length
  let (result, e) := apply e
  completeIssued img checkpoint result false e

/-- Applies writes of an unpublished operation and keeps the whole journal. -/
def runRootless (apply : Action ι Unit) : Action ι Unit := fun e =>
  if e.publicationAttempted then
    (.error (.format (.internal "rootless writes follow a publication attempt")), e)
  else
    let (result, e) := apply e
    completeIssued img 0 result true e

end JournalScope

/-! ## Compaction -/

open WriteEngine

variable {ι : Type} (img : FileImage ι)

def copyBytes : ℕ := 4096

def contained (parent range : FileRange) : Except Error Unit :=
  if parent.contains range then .ok ()
  else .error (.format
    (.insufficientRegion range.start range.length parent.start parent.length))

def pieceAt (record : FileRange) (copied length : ℕ) : Except Error FileRange :=
  match addressAdd record.start copied with
  | .error e => .error (.format e)
  | .ok start =>
    match FileRange.new start length with
    | .error e => .error (.format e)
    | .ok range => .ok range

def copyRecord (parent source destination : FileRange) : ℕ → ℕ → Action ι Unit
  | 0, _ => pure ()
  | fuel + 1, copied =>
    if copied < source.length then do
      let length := min (source.length - copied) copyBytes
      let read ← Fallible.lift (pieceAt source copied length)
      let write ← Fallible.lift (pieceAt destination copied length)
      Fallible.lift (contained parent read)
      Fallible.lift (contained parent write)
      let bytes ← onImage (img.readAt read.start read.length)
      writeInplaceJournaled img write.start bytes
      copyRecord parent source destination fuel (copied + length)
    else pure ()

def applyMoves (parent : FileRange) : List GlobalHeapMove → Action ι Unit
  | [] => pure ()
  | movement :: rest => do
    let source := movement.object.range
    copyRecord img parent source movement.destination source.length 0
    applyMoves parent rest

def apply (plan : GlobalHeapCompaction) : Action ι Unit := do
  let parent := plan.collection
  let length ← Fallible.read fun e => (img.content e.image).length
  if length < parent.stop then
    Fallible.fail (.format (.unexpectedSourceEof parent.stop length))
  else
    match plan.freeSpace with
    | none => pure ()
    | some free =>
      applyMoves img parent plan.moves
      Fallible.lift (contained parent free.header)
      writeInplaceJournaled img free.header.start free.bytes

/-- The state of allocations after a failure. -/
inductive HeapMutationState where
  | restored
  | uncertain
deriving DecidableEq, Repr

structure HeapMutationFailure where
  /-- The number of plans completed before the failure. -/
  completed : ℕ
  state : HeapMutationState
  error : Error
deriving DecidableEq, Repr

def compactPublished (stop : ℕ) (plan : GlobalHeapCompaction) : Action ι Unit := fun e =>
  match e.allocations.beforeReference with
  | .error error => (.error error, e.makeAllocationUncertain img)
  | .ok () =>
    if stop < plan.collection.stop then
      (.error (.format (.unexpectedSourceEof plan.collection.stop stop)), e)
    else JournalScope.runIssued img (apply img plan) e

def isUncertain : Error → Bool
  | .allocationPublicationUncertain => true
  | .commitPartiallyApplied _ _ => true
  | _ => false

def publishedBatch (stop : ℕ) : ℕ → List GlobalHeapCompaction →
    Fallible HeapMutationFailure (WriteEngine ι) Unit
  | _, [], e => (.ok (), e)
  | completed, plan :: rest, e =>
    match compactPublished img stop plan e with
    | (.ok (), e) => publishedBatch stop (completed + 1) rest e
    | (.error error, e) =>
      let e := if isUncertain error then e.makeAllocationUncertain img else e
      let state := match e.allocations.available with
        | .ok () => .restored
        | .error _ => .uncertain
      (.error ⟨completed, state, error⟩, e)

/-- Applies each plan with a checkpoint of its own. `stop` is the published end of allocation. -/
def afterPublication (stop : ℕ) (plans : List GlobalHeapCompaction) :
    Fallible HeapMutationFailure (WriteEngine ι) Unit :=
  publishedBatch img stop 0 plans

def applyAll : List GlobalHeapCompaction → Action ι Unit
  | [] => pure ()
  | plan :: rest => do
    apply img plan
    applyAll rest

/-- Applies all plans, and keeps undo for the enclosing commit. -/
def rootless (plans : List GlobalHeapCompaction) : Action ι Unit := fun e =>
  match e.allocations.beforeReference with
  | .error error => (.error error, e)
  | .ok () => JournalScope.runRootless img (applyAll img plans) e

end Hdf5Pure.Heap
