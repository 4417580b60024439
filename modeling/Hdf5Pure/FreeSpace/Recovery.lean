import Hdf5Pure.FreeSpace.ManagerSet

/-!
# Recovering free space on open

`load_persisted_free_space`, `install_persisted_free_space` and `PersistedRecovery` of `src/edit.rs`:
how an editing session gets its reusable space and the blocks its next commit frees from the
managers of the file it opens. The strict open reads the managers as a checked set, the tolerant
one reads them one by one and skips what it cannot use. The ranges of the superblock extension are
an input, as are the unspecified choices of `sort_unstable`.
-/

namespace Hdf5Pure.FreeSpace

open Format Space Checked
open Edit (Error)

/-- Persistence of free space in later commits. -/
structure PersistState where
  strategy : FileSpaceStrategy
  threshold : ℕ
  pageSize : FileSpacePageSize
  oldBlocks : List Extent
deriving DecidableEq, Repr

/-- What opening sets: the reusable space, the end of allocation for the aggregators, and the
persistence of free space. -/
structure SessionState where
  space : SessionSpace
  aggregation : Option ℕ
  persist : Option PersistState
deriving DecidableEq, Repr

/-- The checked managers of a file and the ranges of its superblock extension. -/
structure PersistedRecovery where
  managers : PersistedManagerSet
  extension : List FileRange
deriving DecidableEq, Repr

def PersistedRecovery.read (sort : UnstableSort) (file : OpenedFile) (info : FileSpaceInfo)
    (extension : Except Error (List FileRange)) : Except Error PersistedRecovery := do
  let storedEof ← liftFormat (relative file.base file.eofAddress)
  let managers ← PersistedManagerSet.read sort file storedEof info
  let extension ← extension
  if file.source.len < file.eofAddress then
    .error (.format (.truncatedFile file.eofAddress file.source.len))
  else .ok ⟨managers, extension⟩

def freeListErrorText : FreeListError → String
  | .overlap previous next => extentsText "overlapping" previous next
  | .unsorted previous next => extentsText "out-of-order" previous next
where
  extentsText (kind : String) (previous next : Extent) : String :=
    let previousStart := previous.start
    let previousStop := previous.stop
    let nextStart := next.start
    let nextStop := next.stop
    s!"{kind} free extents [{previousStart}, {previousStop}) and [{nextStart}, {nextStop})"

def recoveredSpace (info : FileSpaceInfo) (sections : List (Option ManagerKind × Extent)) :
    Checked (Except Error SessionSpace) := do
  let result ← SessionSpace.fromPersisted (some info.strategy) info.threshold info.pageSize sections
  .ok (result.mapError fun error => .format (.internal
    ("admitted free sections cannot form a free list: " ++ freeListErrorText error)))

def orInternal {α : Type} (o : Option α) (reason : String) : Except Error α :=
  match o with
  | some a => .ok a
  | none => .error (.format (.internal reason))

def OpenedFile.storedExtents (file : OpenedFile) (ranges : List FileRange) :
    Except Error (List Extent) :=
  ranges.mapM fun range =>
    orInternal (file.storedExtent range) "a checked metadata allocation has no stored extent"

def PersistedFreeSections.tagged (report : PersistedFreeSections) (strategy : FileSpaceStrategy) :
    Except Error (List (Option ManagerKind × Extent)) :=
  (report.managers.flatMap fun manager =>
    manager.freeSections.sections.map fun e => (managerKind strategy manager.slot, e)).mapM
    fun s => do
      let extent ← orInternal (Extent.new s.2.start s.2.len)
        "a checked free section has no allocator extent"
      .ok (s.1, extent)

def installPersistedFreeSpace (sort : UnstableSort) (file : OpenedFile) (state : SessionState)
    (info : FileSpaceInfo) (recovered : PersistedRecovery) : Checked (Except Error SessionState) :=
  match file.storedExtents (recovered.extension ++ recovered.managers.allocations) with
  | .error error => .ok (.error error)
  | .ok oldBlocks =>
    match recovered.managers.report.tagged info.strategy with
    | .error error => .ok (.error error)
    | .ok tagged => do
      match ← recoveredSpace info (sort.sortBy (fun s => s.2.start) tagged) with
      | .error error => .ok (.error error)
      | .ok space =>
        .ok (.ok { state with
          space := space
          persist := some ⟨info.strategy, info.threshold, info.pageSize, oldBlocks⟩ })

def slotsFrom (slot : ℕ) : List (Option ℕ) → List (ℕ × ℕ)
  | [] => []
  | none :: rest => slotsFrom (slot + 1) rest
  | some addr :: rest => (slot, addr) :: slotsFrom (slot + 1) rest

def FileSpaceInfo.slots (info : FileSpaceInfo) : List (ℕ × ℕ) := slotsFrom 0 info.managerAddrs

def OpenedFile.slotSections (file : OpenedFile) (manager : ℕ × ℕ) :
    Except FormatError (List (ℕ × StoredSection)) := do
  let (sections, _) ← file.readPersistedSections manager.2
  .ok (sections.map (manager.1, ·))

def OpenedFile.recordedSections (file : OpenedFile) (info : FileSpaceInfo) :
    Except FormatError (List (ℕ × StoredSection)) := do
  let managers ← info.slots.mapM file.slotSections
  .ok managers.flatten

def sectionExtent (s : StoredSection) : Option Extent := Extent.new s.addr s.size

/-- The recorded sections that are extents, in order. A paged file keeps the kinds of their
managers. -/
def orderedSections (sort : UnstableSort) (info : FileSpaceInfo) (paged : Bool)
    (sections : List (ℕ × StoredSection)) : List (Option ManagerKind × Extent) :=
  if paged then
    sort.sortBy (fun s => s.2.start) (sections.filterMap fun s =>
      (sectionExtent s.2).map (managerKind info.strategy s.1, ·))
  else
    (sort.sortBy StoredSection.addr (sections.map Prod.snd)).filterMap fun s =>
      (sectionExtent s).map (some .flat, ·)

/-- Keeps the sections that end at or below `eoa` and start at or after the end of the last one
kept. -/
def admitSections (eoa : ℕ) : ℕ → List (Option ManagerKind × Extent) →
    List (Option ManagerKind × Extent)
  | _, [] => []
  | previousEnd, s :: rest =>
    if eoa < s.2.stop ∨ s.2.start < previousEnd then admitSections eoa previousEnd rest
    else s :: admitSections eoa s.2.stop rest

/-- The blocks of the manager at `addr`: all of them if it can be read, otherwise its header. -/
def OpenedFile.managerBlocks (file : OpenedFile) (addr : ℕ) : List Extent :=
  match file.readPersistedSections addr with
  | .ok (_, blocks) => blocks.filterMap file.storedExtent
  | .error _ => (file.managerHeaderBlock addr).toList

/-- The tolerant reading of the managers of a file whose strategy is enabled and persists. -/
def loadTolerant (sort : UnstableSort) (file : OpenedFile) (state : SessionState)
    (info : FileSpaceInfo) (space : SessionSpace) (extension : Option (List FileRange)) :
    Checked (Except Error SessionState) :=
  match file.endOfAllocation with
  | .error _ => .ok (.ok { state with space := space })
  | .ok eoa => do
    let space ← match file.recordedSections info with
      | .error _ => .ok (.ok space)
      | .ok sections =>
        recoveredSpace info (admitSections eoa 0 (orderedSections sort info space.isPaged sections))
    match space with
    | .error error => .ok (.error error)
    | .ok space =>
      let oldBlocks := (extension.getD []).filterMap file.storedExtent ++
        info.slots.flatMap fun manager => file.managerBlocks manager.2
      .ok (.ok { state with
        space := space
        persist := some ⟨info.strategy, info.threshold, info.pageSize, oldBlocks⟩ })

def startAggregation (file : OpenedFile) (state : SessionState) (aggregates : Bool) : SessionState :=
  match file.endOfAllocation with
  | .ok eoa => if aggregates then { state with aggregation := some eoa } else state
  | .error _ => state

def loadPersistedFreeSpace (sort : UnstableSort) (file : OpenedFile) (state : SessionState)
    (info : Option FileSpaceInfo) (recovered : Option PersistedRecovery)
    (extension : Option (List FileRange)) : Checked (Except Error SessionState) :=
  match info with
  | none => .ok (.ok (startAggregation file state true))
  | some info =>
    let space := SessionSpace.fromStrategy (some info.strategy) info.threshold info.pageSize
    let state := startAggregation file state (info.strategy == .aggr || info.strategy == .fsmAggr)
    if !info.persist || !space.isEnabled then .ok (.ok { state with space := space })
    else match recovered with
      | some recovered => installPersistedFreeSpace sort file state info recovered
      | none => loadTolerant sort file state info space extension

/-- How strictly an open treats persisted free space. -/
inductive PersistedFreeSpacePolicy where
  | strict
  | tolerant
deriving DecidableEq, Repr

/-- Recovers the free space of a file on open. A strict open reads the persisted managers first. -/
def recoverFreeSpace (sort : UnstableSort) (policy : PersistedFreeSpacePolicy) (file : OpenedFile)
    (state : SessionState) (info : Option FileSpaceInfo)
    (extension : Except Error (List FileRange)) : Checked (Except Error SessionState) :=
  match policy, info.filter (·.persist) with
  | .strict, some persisted =>
    match PersistedRecovery.read sort file persisted extension with
    | .error error => .ok (.error error)
    | .ok recovered => loadPersistedFreeSpace sort file state info (some recovered) none
  | _, _ => loadPersistedFreeSpace sort file state info none extension.toOption

end Hdf5Pure.FreeSpace
