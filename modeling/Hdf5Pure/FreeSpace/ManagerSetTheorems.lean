import Hdf5Pure.FreeSpace.Recovery
import Hdf5Pure.Space.PersistedTheorems

/-!
# The strict reader reads what the tolerant one does

A manager that the strict reader accepts is read by the tolerant one, with the same sections and
blocks. The sections of the strict reader are disjoint and lie inside the file.
-/

namespace Hdf5Pure.FreeSpace

open Format Space IntervalLists List
open Edit (Error)

variable {context : PersistedManagerContext} {widths : FormatWidths}
  {address logicalEof storedEof : ℕ} {range : FileRange} {sort : UnstableSort}
  {strategy : FileSpaceStrategy}

section Errors

variable {α : Type}

lemma mapError_eq_ok {ε ε' : Type} {g : ε → ε'} {x : Except ε α} {a : α} :
    x.mapError g = .ok a ↔ x = .ok a := by
  cases x <;> simp [Except.mapError]

lemma liftFormat_eq_ok {x : Except FormatError α} {a : α} : liftFormat x = .ok a ↔ x = .ok a :=
  mapError_eq_ok

lemma attach_eq_ok {x : Except Error α} {a : α} : context.attach x = .ok a ↔ x = .ok a :=
  mapError_eq_ok

end Errors

/-! ## Headers and section lists -/

variable {frame : FreeSpaceManagerHeaderFrame}

/-- A frame keeps the widths of its file, and its list address is never the undefined one. -/
lemma parseFields_eq_ok {block : Bytes}
    (h : FreeSpaceManagerHeaderFrame.parseFields widths block = .ok frame) :
    frame.widths = widths ∧ frame.sectionListAddr ≠ some (undefinedAddress widths.offsets) := by
  simp only [FreeSpaceManagerHeaderFrame.parseFields, bind_eq_ok, ite_error_eq_ok,
    Except.ok.injEq] at h
  obtain ⟨_, -, -, _, -, _, -, _, -, _, -, _, -, _, -, _, -, _, -, _, -, -, _, -, addr, haddr, _, -, _,
    -, -, rfl⟩ := h
  simp only [decodeStoredAddress, bind_eq_ok, Except.ok.injEq] at haddr
  obtain ⟨stored, -, rfl⟩ := haddr
  refine ⟨rfl, ?_⟩
  show (if _ then _ else _) ≠ _
  split
  · simp
  · rename_i hne
    simpa using hne

lemma fileHeader_eq_ok {header : FreeSpaceManagerHeader}
    (h : frame.fileHeader = .ok header) : header = frame.toHeader := by
  simp only [FreeSpaceManagerHeaderFrame.fileHeader, ite_error_eq_ok] at h
  obtain ⟨-, -, -, h⟩ := h
  split at h
  · exact (Except.ok.inj (ite_error_eq_ok.mp h).2).symm
  · simp only [ite_error_eq_ok] at h
    exact (Except.ok.inj h.2.2).symm

lemma admitAllocation_eq_ok {allocations out : List FileRange}
    (h : admitAllocation range logicalEof allocations = .ok out) :
    out = allocations ++ [range] := by
  simp only [admitAllocation, ite_error_eq_ok] at h
  obtain ⟨-, h⟩ := h
  split at h
  · cases h
  · exact (Except.ok.inj h).symm

namespace OpenedFile

variable {file : OpenedFile}

/-- The sections and blocks of a manager that the strict reader accepts are those that the tolerant
one reads. -/
lemma readPersistedSections_of_strict {allocations middle out : List FileRange}
    {sections : List StoredSection} {metadataBytes : ℕ}
    (hheader : file.readHeader logicalEof address allocations = .ok (range, frame, middle))
    (hlist : file.readSectionList logicalEof address frame range.length middle =
      .ok (sections, metadataBytes, out)) :
    ∃ blocks, file.readPersistedSections address = .ok (sections, blocks) ∧
      out = allocations ++ blocks := by
  simp only [readHeader, readRange, bind_eq_ok, liftFormat_eq_ok] at hheader
  obtain ⟨position, hpos, _, hrange, _, hadm, bytes, hread, _, hparse, hheader⟩ := hheader
  cases hheader
  obtain rfl := admitAllocation_eq_ok hadm
  rw [(FileRange.new_eq_ok hrange).1, (FileRange.new_eq_ok hrange).2] at hread
  have hframe := hparse
  simp only [FreeSpaceManagerHeaderFrame.parse, ite_error_eq_ok, bind_eq_ok] at hframe
  obtain ⟨-, -, -, -, hframe⟩ := hframe
  obtain ⟨hwidths, hne⟩ := parseFields_eq_ok hframe
  simp only [readSectionList, bind_eq_ok, liftFormat_eq_ok] at hlist
  obtain ⟨header, hfile, hlist⟩ := hlist
  have hhdr : FreeSpaceManagerHeader.parse file.widths bytes = .ok header :=
    bind_eq_ok.mpr ⟨frame, hparse, hfile⟩
  have haddr' : header.sectionListAddr =
      frame.sectionListAddr.getD (undefinedAddress file.widths.offsets) := by
    rw [fileHeader_eq_ok hfile, ← hwidths]
    rfl
  simp only [readPersistedSections, bind_eq_ok]
  cases haddr : frame.sectionListAddr with
  | none =>
    rw [haddr] at hlist haddr'
    cases hlist
    exact ⟨[range], ⟨position, hpos, bytes, hread, header, hhdr, range, hrange, if_pos haddr'⟩, rfl⟩
  | some listAddress =>
    rw [haddr] at hlist haddr' hne
    simp only [bind_eq_ok, liftFormat_eq_ok, ite_error_eq_ok, readRange] at hlist
    obtain ⟨listPosition, hlpos, ref, href, admitted, hadmit, hend, listBytes, hlread, -, -, hlist⟩ :=
      hlist
    split at hlist
    · cases hlist
    simp only [bind_eq_ok, liftFormat_eq_ok] at hlist
    obtain ⟨sections', hsections, hlist⟩ := hlist
    cases hlist
    simp only [FreeSpaceManagerHeaderFrame.sectionListRef, ite_error_eq_ok, bind_eq_ok,
      Except.ok.injEq] at href
    obtain ⟨-, -, -, -, lrange, hlrange, parseRange, hlparse, rfl⟩ := href
    obtain ⟨hstart, hlen⟩ := FileRange.new_eq_ok hlparse
    rw [hstart, hlen] at hlread
    have hused : header.sectionListUsed = frame.sectionListUsed := by rw [fileHeader_eq_ok hfile]; rfl
    have hallocated : header.sectionListAllocated = frame.sectionListAllocated := by
      rw [fileHeader_eq_ok hfile]
      rfl
    refine ⟨[range, lrange], ⟨position, hpos, bytes, hread, header, hhdr, range, hrange, ?_⟩, ?_⟩
    · rw [haddr', if_neg (by simpa using hne)]
      simp only [bind_eq_ok, ite_error_eq_ok, hused, hallocated]
      exact ⟨listPosition, hlpos, lrange, hlrange, hend, listBytes, hlread, _, hsections, rfl⟩
    · rw [admitAllocation_eq_ok hadmit, append_assoc]
      rfl

/-- A section that the strict reader accepts is an extent inside the file. -/
lemma checkSection_eq_ok {stored : StoredSection} {e : Extent}
    (h : file.checkSection storedEof stored = .ok e) :
    sectionExtent stored = some e ∧ e.stop + file.base ≤ file.source.len := by
  simp only [checkSection, bind_eq_ok, liftFormat_eq_ok, ite_error_eq_ok,
    Except.ok.injEq] at h
  obtain ⟨e', hnew, -, stop, hstop, hlen, rfl⟩ := h
  refine ⟨?_, ?_⟩
  · simp only [freeSection, ite_error_eq_ok] at hnew
    split at hnew
    · exact Except.ok.inj hnew.2 ▸ ‹_›
    · cases hnew.2
  · rw [← resolve_eq_ok hstop]
    omega

lemma checkSections_eq_ok {stored : List StoredSection}
    {tagged : List (Extent × PersistedManagerContext)}
    (h : file.checkSections storedEof context stored = .ok tagged) :
    tagged.map Prod.fst = stored.filterMap sectionExtent ∧
      ∀ t ∈ tagged, t.1.stop + file.base ≤ file.source.len := by
  induction stored generalizing context tagged with
  | nil =>
    cases h
    exact ⟨rfl, by simp⟩
  | cons s rest ih =>
    simp only [checkSections, bind_eq_ok, attach_eq_ok, Except.ok.injEq] at h
    obtain ⟨checked, hchecked, others, hothers, rfl⟩ := h
    obtain ⟨hextent, hwithin⟩ := checkSection_eq_ok hchecked
    obtain ⟨hmap, hrest⟩ := ih hothers
    refine ⟨?_, forall_mem_cons.mpr ⟨hwithin, hrest⟩⟩
    rw [filterMap_cons_some hextent, map_cons, hmap]

end OpenedFile

lemma FreeSections.new_eq_ok {sections : List Extent} {out : FreeSections}
    (h : FreeSections.new sort sections = .ok out) :
    out.sections = sort.sortBy Extent.start sections := by
  obtain ⟨freeBytes, -, h⟩ := bind_eq_ok.mp h
  split at h
  · cases h
  · cases h
    rfl

namespace OpenedFile

variable {file : OpenedFile}

/-- A manager that the strict reader accepts: what the tolerant reader finds in it, and the checked
sections. -/
lemma readManager_eq_ok {slot : ℕ} {state state' : ReadState} {manager : FreeSpaceManagerSections}
    (h : file.readManager sort storedEof logicalEof strategy slot address state =
      .ok (manager, state')) :
    ∃ stored blocks tagged, file.readPersistedSections address = .ok (stored, blocks) ∧
      tagged.map Prod.fst = stored.filterMap sectionExtent ∧
      (∀ t ∈ tagged, t.1.stop + file.base ≤ file.source.len) ∧
      manager.slot = slot ∧ manager.freeSections.sections.Perm (stored.filterMap sectionExtent) ∧
      state' = ⟨state.allocations ++ blocks, state.tagged ++ tagged⟩ := by
  simp only [readManager, bind_eq_ok, attach_eq_ok] at h
  obtain ⟨⟨range, frame, middle⟩, hheader, ⟨stored, metadataBytes, out⟩, hlist, tagged, htagged, h⟩ :=
    h
  split at h
  · rw [attach_eq_ok] at h
    cases h
  rename_i freeSections hfree
  cases h
  obtain ⟨blocks, hread, hout⟩ :=
    readPersistedSections_of_strict hheader hlist
  obtain ⟨hmap, hwithin⟩ := checkSections_eq_ok htagged
  refine ⟨stored, blocks, tagged, hread, hmap, hwithin, rfl, ?_, ?_⟩
  · rw [FreeSections.new_eq_ok hfree, hmap]
    exact sort.perm _ _
  · rw [hout]

def readBlocks (file : OpenedFile) (addr : ℕ) : List FileRange :=
  match file.readPersistedSections addr with
  | .ok (_, blocks) => blocks
  | .error _ => []

end OpenedFile

def slotExtents (sections : List (ℕ × StoredSection)) : List (ℕ × Extent) :=
  sections.filterMap fun s => (sectionExtent s.2).map (s.1, ·)

lemma slotExtents_append (l m : List (ℕ × StoredSection)) :
    slotExtents (l ++ m) = slotExtents l ++ slotExtents m := filterMap_append

lemma slotExtents_of_slot (slot : ℕ) (stored : List StoredSection) :
    slotExtents (stored.map (slot, ·)) = (stored.filterMap sectionExtent).map (slot, ·) := by
  rw [slotExtents, filterMap_map, map_filterMap]
  rfl

/-- What the strict reader has collected from some slots. -/
structure SlotsRead (file : OpenedFile) (slots : List (ℕ × ℕ)) (state : ReadState)
    (managers : List FreeSpaceManagerSections) (state' : ReadState)
    (managers' : List FreeSpaceManagerSections) (sections : List (ℕ × StoredSection)) : Prop where
  read : ∃ lists, slots.mapM file.slotSections = .ok lists ∧ lists.flatten = sections
  allocations : state'.allocations = state.allocations ++ slots.flatMap fun m => file.readBlocks m.2
  tagged : state'.tagged.map Prod.fst =
    state.tagged.map Prod.fst ++ (slotExtents sections).map Prod.snd
  within : (∀ t ∈ state.tagged, t.1.stop + file.base ≤ file.source.len) →
    ∀ t ∈ state'.tagged, t.1.stop + file.base ≤ file.source.len
  managers : (managers'.flatMap fun m => m.freeSections.sections.map fun e => (m.slot, e)).Perm
    ((managers.flatMap fun m => m.freeSections.sections.map fun e => (m.slot, e)) ++
      slotExtents sections)

namespace OpenedFile

variable {file : OpenedFile}

lemma readSlots_eq_ok {earlier rest : List (Option ℕ)}
    {managers managers' : List FreeSpaceManagerSections} {bytes bytes' : ℕ}
    {state state' : ReadState}
    (h : file.readSlots sort storedEof logicalEof strategy earlier rest managers bytes state =
      .ok (managers', bytes', state')) :
    ∃ sections, SlotsRead file (slotsFrom earlier.length rest) state managers state' managers'
      sections := by
  induction rest generalizing earlier managers bytes state with
  | nil =>
    cases h
    refine ⟨[], ⟨[], rfl, rfl⟩, ?_, ?_, id, ?_⟩
    · simp [slotsFrom]
    · simp [slotExtents]
    · simp [slotExtents]
  | cons addr rest ih =>
    cases addr with
    | none =>
      obtain ⟨sections, hread⟩ := ih h
      rw [length_append] at hread
      exact ⟨sections, hread⟩
    | some address =>
      simp only [readSlots] at h
      split at h
      · rw [attach_eq_ok] at h
        cases h
      obtain ⟨⟨manager, middle⟩, hmanager, h⟩ := bind_eq_ok.mp h
      obtain ⟨stored, blocks, tagged, hstored, hmap, hwithin, hslot, hperm, rfl⟩ :=
        readManager_eq_ok hmanager
      split at h
      · cases h
      obtain ⟨sections, hread⟩ := ih h
      rw [length_append, length_singleton] at hread
      have hblocks : file.readBlocks address = blocks := by
        unfold readBlocks
        rw [hstored]
      have hsections : file.slotSections (earlier.length, address) =
          .ok (stored.map (earlier.length, ·)) :=
        bind_eq_ok.mpr ⟨_, hstored, rfl⟩
      obtain ⟨⟨lists, hlists, hflat⟩, hallocations, htagged, hin, hmanagers⟩ := hread
      refine ⟨stored.map (earlier.length, ·) ++ sections,
        ⟨stored.map (earlier.length, ·) :: lists, ?_, ?_⟩, ?_, ?_, ?_, ?_⟩
      · rw [slotsFrom, mapM_cons, hsections, hlists]
        rfl
      · rw [flatten_cons, hflat]
      · rw [hallocations, slotsFrom, flatMap_cons, hblocks, append_assoc]
      · rw [htagged, map_append, hmap, slotExtents_append, slotExtents_of_slot, map_append,
          map_map, append_assoc]
        congr 2
        exact (map_id _).symm
      · intro hstate t ht
        exact hin (forall_mem_append.mpr ⟨hstate, hwithin⟩) t ht
      · refine hmanagers.trans ?_
        rw [flatMap_append, slotExtents_append, slotExtents_of_slot, append_assoc,
          flatMap_singleton, hslot]
        exact ((hperm.map _).append_right _).append_left _

end OpenedFile

/-! ## The checked set -/

/-- Sections in order of their starts without an overlap of neighbours are ascending. -/
lemma ascending_of_firstOverlap {α : Type} {range : α → Extent} {l : List α}
    (hs : l.Pairwise fun a b => (range a).start ≤ (range b).start)
    (h : firstOverlap range l = none) : AscendingExtents (l.map range) := by
  induction l with
  | nil => exact List.Pairwise.nil
  | cons previous rest ih =>
    cases rest with
    | nil => exact pairwise_singleton _ _
    | cons e rest =>
      rw [firstOverlap] at h
      split at h
      · cases h
      rename_i hover
      obtain ⟨hle, hs'⟩ := pairwise_cons.mp hs
      have htail : AscendingExtents ((e :: rest).map range) := ih hs' h
      have hpos' := (range e).start_lt_stop
      have hstart := hle e (by simp)
      -- the next section starts later and does not overlap, so it starts at the end or after it
      have hnext : (range previous).stop ≤ (range e).start := by
        simp only [sectionsOverlap, Bool.and_eq_true, decide_eq_true_eq] at hover
        omega
      refine pairwise_cons.mpr ⟨forall_mem_cons.mpr ⟨hnext, fun x hx => ?_⟩, htail⟩
      have : (range e).stop ≤ x.start := (pairwise_cons.mp htail).1 x hx
      show (range previous).stop ≤ x.start
      omega

/-- The managers that the strict reader accepts record disjoint sections inside the file. -/
lemma PersistedManagerSet.read_eq_ok {file : OpenedFile} {info : FileSpaceInfo}
    {set : PersistedManagerSet} (h : PersistedManagerSet.read sort file storedEof info = .ok set) :
    ∃ sections, file.recordedSections info = .ok sections ∧
      set.allocations = info.slots.flatMap (fun m => file.readBlocks m.2) ∧
      (set.report.managers.flatMap fun m => m.freeSections.sections.map fun e => (m.slot, e)).Perm
        (slotExtents sections) ∧
      DisjointExtents ((slotExtents sections).map Prod.snd) ∧
      ∀ s ∈ slotExtents sections, s.2.stop + file.base ≤ file.source.len := by
  obtain ⟨logicalEof, -, h⟩ := bind_eq_ok.mp h
  obtain ⟨⟨managers, bytes, state⟩, hslots, h⟩ := bind_eq_ok.mp h
  simp only at h
  split at h
  · rw [attach_eq_ok] at h
    cases h
  rename_i hoverlap
  obtain ⟨freeSections, -, h⟩ := bind_eq_ok.mp h
  cases h
  obtain ⟨sections, ⟨lists, hlists, hflat⟩, hallocations, htagged, hwithin, hmanagers⟩ :=
    OpenedFile.readSlots_eq_ok hslots
  have htagged' : state.tagged.map Prod.fst = (slotExtents sections).map Prod.snd := by
    simpa using htagged
  refine ⟨sections, bind_eq_ok.mpr ⟨lists, hlists, by rw [hflat]⟩, ?_, ?_, ?_, ?_⟩
  · simpa [FileSpaceInfo.slots] using hallocations
  · simpa using hmanagers
  · have hasc := ascending_of_firstOverlap (sort.sorted (fun s => s.1.start) state.tagged) hoverlap
    have hperm : ((sort.sortBy (fun s => s.1.start) state.tagged).map Prod.fst).Perm
        ((slotExtents sections).map Prod.snd) := htagged' ▸ (sort.perm _ _).map _
    exact (hperm.pairwise_iff fun h => h.symm).mp (FreeList.pairwise_disjoint_of_ascending hasc)
  · intro s hs
    have hmem : s.2 ∈ state.tagged.map Prod.fst := htagged' ▸ mem_map_of_mem hs
    obtain ⟨t, ht, hts⟩ := mem_map.mp hmem
    exact hts ▸ hwithin (by simp) t ht

end Hdf5Pure.FreeSpace
