import Hdf5Pure.Edit.Error
import Hdf5Pure.Format.FreeSpaceManager
import Hdf5Pure.Space.Persisted
import Hdf5Pure.Utils.Sorting

/-!
# Reading persisted managers

`src/free_space_manager/mod.rs` and `src/free_sections.rs`: the managers that the File Space Info
message of a file names, read one by one by the tolerant open and as a checked set by the strict
one. The errors of the strict reader are those of an editing session, so that a failure carries the
manager it occurred in.
-/

namespace Hdf5Pure.FreeSpace

open Format Space
open Edit (Error)

/-- The fields of a File Space Info message that opening a session reads. -/
structure FileSpaceInfo where
  strategy : FileSpaceStrategy
  persist : Bool
  threshold : ℕ
  pageSize : FileSpacePageSize
  managerAddrs : List (Option ℕ)
deriving DecidableEq, Repr

def managerKind (strategy : FileSpaceStrategy) (slot : ℕ) : Option ManagerKind :=
  match strategy with
  | .fsmAggr => some .flat
  | .page =>
    if slot = 0 then some .pagedSmallMetadata
    else if slot = 2 then some .pagedSmallRaw
    else if slot = 6 then some .pagedLargeGeneric
    else none
  | .aggr | .none => none

/-- An opened file: its bytes, its field widths, the position of its signature, and the recorded end
of file. -/
structure OpenedFile where
  source : Source
  widths : FormatWidths
  base : ℕ
  eofAddress : ℕ
  base_le : base ≤ source.len

namespace OpenedFile

def endOfAllocation (file : OpenedFile) : Except FormatError ℕ := relative file.base file.source.len

def storedExtent (file : OpenedFile) (range : FileRange) : Option Extent :=
  (relative file.base range.start).toOption.bind fun start => Extent.new start range.length

/-! ## The tolerant reader -/

/-- Reads the manager at the stored address `addr`: its free sections and the ranges of its header
and section list. -/
def readPersistedSections (file : OpenedFile) (addr : ℕ) :
    Except FormatError (List StoredSection × List FileRange) := do
  let hdrLen := freeSpaceManagerHeaderLen file.widths
  let a ← resolve file.base addr
  let fshd ← file.source.readExactAt a hdrLen
  let header ← FreeSpaceManagerHeader.parse file.widths fshd
  let headerRange ← FileRange.new a hdrLen
  if header.sectionListAddr = undefinedAddress file.widths.offsets then .ok ([], [headerRange])
  else do
    let fa ← resolve file.base header.sectionListAddr
    let allocated := header.sectionListAllocated
    let range ← FileRange.new fa allocated
    let len := file.source.len
    if len < range.stop then
      .error (.invalidFreeSpaceManager (s!"the section list allocation at {fa}, {allocated} " ++
        s!"bytes long, runs past the end of the file, {len} bytes long"))
    else do
      let block ← file.source.readExactAt fa header.sectionListUsed
      let sections ← parseSectionInfo file.widths block addr header
      .ok (sections, [headerRange, range])

def managerHeaderBlock (file : OpenedFile) (addr : ℕ) : Option Extent :=
  let len := freeSpaceManagerHeaderLen file.widths
  match resolve file.base addr with
  | .error _ => none
  | .ok position =>
    match file.source.readExactAt position len with
    | .error _ => none
    | .ok fshd =>
      match FreeSpaceManagerHeader.parse file.widths fshd with
      | .error _ => none
      | .ok _ => Extent.new addr len

end OpenedFile

/-! ## Checked free sections -/

/-- `FreeSection::new`: a section with a positive length and a representable end. -/
def freeSection (address length : ℕ) : Except FormatError Extent :=
  if length = 0 then .error (.invalidFreeSpaceManager "a free section has zero length")
  else match Extent.new address length with
  | some extent => .ok extent
  | none => .error (.offsetOverflow address length)

def sectionsOverlap (e previous : Extent) : Bool :=
  decide (e.start < previous.stop) && decide (previous.start < e.stop)

def firstOverlap {α : Type} (range : α → Extent) : List α → Option (α × α)
  | [] => none
  | [_] => none
  | previous :: e :: rest =>
    if sectionsOverlap (range e) (range previous) then some (e, previous)
    else firstOverlap range (e :: rest)

def overlapError (e previous : Extent) : Error :=
  .overlappingFreeSections e.start e.len previous.start previous.len

def sumLengths : List Extent → ℕ → Except FormatError ℕ
  | [], sum => .ok sum
  | e :: rest, sum =>
    match checkedAdd sum e.len with
    | some sum => sumLengths rest sum
    | none => .error (.offsetOverflow sum e.len)

/-- Free sections in ascending order with their total length. -/
structure FreeSections where
  sections : List Extent
  freeBytes : ℕ
deriving DecidableEq, Repr

def liftFormat {α : Type} (x : Except FormatError α) : Except Error α := x.mapError .format

def FreeSections.new (sort : UnstableSort) (sections : List Extent) : Except Error FreeSections := do
  let sections := sort.sortBy Extent.start sections
  let freeBytes ← liftFormat (sumLengths sections 0)
  match firstOverlap id sections with
  | some (e, previous) => .error (overlapError e previous)
  | none => .ok ⟨sections, freeBytes⟩

/-! ## The strict reader -/

/-- What is known of a manager when its reading fails. -/
structure PersistedManagerContext where
  slot : ℕ
  headerAddress : ℕ
  sectionListAddress : Option ℕ
  record : Option (ℕ × ℕ)
deriving DecidableEq, Repr

def PersistedManagerContext.attach {α : Type} (context : PersistedManagerContext)
    (x : Except Error α) : Except Error α :=
  x.mapError (.persistedFreeSpace context.slot context.headerAddress context.sectionListAddress
    context.record)

/-- The category of a manager. -/
inductive FreeSpaceManagerRole where
  | fsmAggr
  | pageLargeGeneric
  | pageSmallMetadata
  | pageSmallRawData
  | unknown
deriving DecidableEq, Repr

def nonpagedManagerSlots : ℕ := 6

def managerRole (strategy : FileSpaceStrategy) (slot : ℕ) : FreeSpaceManagerRole :=
  match managerKind strategy slot with
  | some .flat => if slot < nonpagedManagerSlots then .fsmAggr else .unknown
  | some .pagedSmallMetadata => .pageSmallMetadata
  | some .pagedSmallRaw => .pageSmallRawData
  | some .pagedLargeGeneric => .pageLargeGeneric
  | none => .unknown

structure FreeSpaceManagerSections where
  slot : ℕ
  address : ℕ
  role : FreeSpaceManagerRole
  freeSections : FreeSections
  metadataBytes : ℕ
deriving DecidableEq, Repr

/-- The free sections that the managers of a file record. -/
structure PersistedFreeSections where
  managers : List FreeSpaceManagerSections
  freeSections : FreeSections
  managerMetadataBytes : ℕ
deriving DecidableEq, Repr

/-- The managers of a file and the ranges they occupy. -/
structure PersistedManagerSet where
  report : PersistedFreeSections
  allocations : List FileRange
deriving DecidableEq, Repr

/-- Records the range of a manager block that overlaps no earlier one. -/
def admitAllocation (range : FileRange) (logicalEof : ℕ) (allocations : List FileRange) :
    Except FormatError (List FileRange) :=
  let address := range.start
  let length := range.length
  if logicalEof < range.stop then
    .error (.invalidFreeSpaceManager
      (s!"the manager allocation at {address}, {length} bytes long, exceeds the file allocation"))
  else match allocations.find? fun previous => range.overlaps previous with
  | some previous =>
    let previousAddress := previous.start
    let previousLength := previous.length
    .error (.invalidFreeSpaceManager (s!"the manager allocation at {address}, {length} bytes " ++
      s!"long, overlaps the manager allocation at {previousAddress}, {previousLength} bytes long"))
  | none => .ok (allocations ++ [range])

/-- The ranges of the managers read so far, their sections with the manager of each, and the report.
-/
structure ReadState where
  allocations : List FileRange
  tagged : List (Extent × PersistedManagerContext)
deriving DecidableEq, Repr

def OpenedFile.readRange (file : OpenedFile) (range : FileRange) : Except Error Bytes :=
  liftFormat (file.source.readExactAt range.start range.length)

def OpenedFile.readHeader (file : OpenedFile) (logicalEof address : ℕ)
    (allocations : List FileRange) :
    Except Error (FileRange × FreeSpaceManagerHeaderFrame × List FileRange) := do
  let position ← liftFormat (resolve file.base address)
  let range ← liftFormat (FileRange.new position (freeSpaceManagerHeaderLen file.widths))
  let allocations ← liftFormat (admitAllocation range logicalEof allocations)
  let bytes ← file.readRange range
  let frame ← liftFormat (FreeSpaceManagerHeaderFrame.parse file.widths bytes)
  .ok (range, frame, allocations)

/-- The section list of a manager: its records, the bytes the manager occupies, and the
allocations. -/
def OpenedFile.readSectionList (file : OpenedFile) (logicalEof address : ℕ)
    (frame : FreeSpaceManagerHeaderFrame) (headerLength : ℕ) (allocations : List FileRange) :
    Except Error (List StoredSection × ℕ × List FileRange) := do
  let header ← liftFormat frame.fileHeader
  match frame.sectionListAddr with
  | none => .ok ([], headerLength, allocations)
  | some listAddress => do
    let position ← liftFormat (resolve file.base listAddress)
    let listRef ← liftFormat (frame.sectionListRef address position)
    let allocations ← liftFormat (admitAllocation listRef.range logicalEof allocations)
    if file.source.len < listRef.range.stop then
      .error (.format (.unexpectedSourceEof listRef.range.stop file.source.len))
    else do
      let bytes ← file.readRange listRef.parseRange
      liftFormat (parseSectionListPrefix listRef.offsets bytes listRef.headerAddr)
      match checkedAdd headerLength listRef.range.length with
      | none => .error (.format (.offsetOverflow headerLength listRef.range.length))
      | some metadataBytes => do
        let sections ← liftFormat (parseSectionInfo file.widths bytes address header)
        .ok (sections, metadataBytes, allocations)

def OpenedFile.checkSection (file : OpenedFile) (storedEof : ℕ) (stored : StoredSection) :
    Except Error Extent := do
  let checked ← liftFormat (freeSection stored.addr stored.size)
  let address := checked.start
  let length := checked.len
  if storedEof < checked.stop then
    .error (.format (.invalidFreeSpaceManager
      (s!"the free section at {address}, {length} bytes long, exceeds the file allocation")))
  else do
    let stop ← liftFormat (resolve file.base checked.stop)
    if file.source.len < stop then
      .error (.format (.unexpectedSourceEof stop file.source.len))
    else .ok checked

def OpenedFile.checkSections (file : OpenedFile) (storedEof : ℕ) (context : PersistedManagerContext) :
    List StoredSection → Except Error (List (Extent × PersistedManagerContext))
  | [] => .ok []
  | stored :: rest => do
    let context := { context with record := some (stored.addr, stored.size) }
    let checked ← context.attach (file.checkSection storedEof stored)
    let others ← checkSections file storedEof context rest
    .ok ((checked, context) :: others)

def combineContext (context : PersistedManagerContext)
    (tagged : List (Extent × PersistedManagerContext)) (error : Error) : PersistedManagerContext :=
  match error with
  | .overlappingFreeSections address length _ _ => { context with record := some (address, length) }
  | _ => { context with record := tagged.getLast?.bind fun s => s.2.record }

def OpenedFile.readManager (file : OpenedFile) (sort : UnstableSort) (storedEof logicalEof : ℕ)
    (strategy : FileSpaceStrategy) (slot address : ℕ) (state : ReadState) :
    Except Error (FreeSpaceManagerSections × ReadState) := do
  let context : PersistedManagerContext := ⟨slot, address, none, none⟩
  let (headerRange, frame, allocations) ←
    context.attach (file.readHeader logicalEof address state.allocations)
  let context := { context with sectionListAddress := frame.sectionListAddr }
  let (stored, metadataBytes, allocations) ← context.attach
    (file.readSectionList logicalEof address frame headerRange.length allocations)
  let tagged ← file.checkSections storedEof context stored
  match FreeSections.new sort (tagged.map Prod.fst) with
  | .error error => (combineContext context tagged error).attach (.error error)
  | .ok freeSections =>
    .ok (⟨slot, address, managerRole strategy slot, freeSections, metadataBytes⟩,
      ⟨allocations, state.tagged ++ tagged⟩)

/-- The managers of the slots from `earlier.length` on. A manager that an earlier slot names is
refused. -/
def OpenedFile.readSlots (file : OpenedFile) (sort : UnstableSort) (storedEof logicalEof : ℕ)
    (strategy : FileSpaceStrategy) (earlier : List (Option ℕ)) :
    List (Option ℕ) → List FreeSpaceManagerSections → ℕ → ReadState →
      Except Error (List FreeSpaceManagerSections × ℕ × ReadState)
  | [], managers, bytes, state => .ok (managers, bytes, state)
  | none :: rest, managers, bytes, state =>
    readSlots file sort storedEof logicalEof strategy (earlier ++ [none]) rest managers bytes state
  | some address :: rest, managers, bytes, state =>
    let slot := earlier.length
    match earlier.findIdx? (· == some address) with
    | some previous =>
      (⟨slot, address, none, none⟩ : PersistedManagerContext).attach
        (.error (.format (.invalidFreeSpaceManager (s!"the free-space manager at stored address " ++
          s!"{address} is recorded in slots {previous} and {slot}"))))
    | none => do
      let (manager, state) ← file.readManager sort storedEof logicalEof strategy slot address state
      match checkedAdd bytes manager.metadataBytes with
      | none => .error (.format (.offsetOverflow bytes manager.metadataBytes))
      | some bytes =>
        readSlots file sort storedEof logicalEof strategy (earlier ++ [some address]) rest
          (managers ++ [manager]) bytes state

def PersistedManagerSet.read (sort : UnstableSort) (file : OpenedFile) (storedEof : ℕ)
    (info : FileSpaceInfo) : Except Error PersistedManagerSet := do
  let logicalEof ← liftFormat (resolve file.base storedEof)
  let (managers, bytes, state) ← file.readSlots sort storedEof logicalEof info.strategy []
    info.managerAddrs [] 0 ⟨[], []⟩
  let tagged := sort.sortBy (fun s => s.1.start) state.tagged
  match firstOverlap Prod.fst tagged with
  | some (s, previous) => s.2.attach (.error (overlapError s.1 previous.1))
  | none => do
    let freeSections ← FreeSections.new sort (tagged.map Prod.fst)
    .ok ⟨⟨managers, freeSections, bytes⟩, state.allocations⟩

end Hdf5Pure.FreeSpace
