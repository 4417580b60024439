import Hdf5Pure.FreeSpace.ManagerSetTheorems

/-!
# What recovered space may hand out

After an open a session may hand out the reusable parts of the sections that recovery admits, and
its next commit frees the blocks of the managers and of the superblock extension. Neither open
compares sections with blocks, so the session owns nothing twice exactly if the file keeps them
apart.
-/

namespace Hdf5Pure.FreeSpace

open List hiding Disjoint

open Format Space Checked IntervalLists
open Edit (Error)

/-! ## Admission -/

/-- Admitted sections are ascending, start at or after the last end and lie below the end of
allocation. -/
lemma admitSections_spec (eoa previousEnd : ℕ) (sections : List (Option ManagerKind × Extent)) :
    AscendingExtents ((admitSections eoa previousEnd sections).map Prod.snd) ∧
      ∀ s ∈ admitSections eoa previousEnd sections, previousEnd ≤ s.2.start ∧ s.2.stop ≤ eoa := by
  induction sections generalizing previousEnd with
  | nil => exact ⟨List.Pairwise.nil, by simp [admitSections]⟩
  | cons s rest ih =>
    rw [admitSections]
    split
    · exact ih previousEnd
    obtain ⟨hasc, hbounds⟩ := ih s.2.stop
    have hpos := s.2.start_lt_stop
    refine ⟨pairwise_cons.mpr ⟨forall_mem_map.mpr fun t ht => (hbounds t ht).1, hasc⟩,
      forall_mem_cons.mpr ⟨by omega, fun t ht => ?_⟩⟩
    have := hbounds t ht
    omega

variable {sections : List (Option ManagerKind × Extent)} {blocks : List Extent} {b : Extent}

lemma admitSections_of_ascending {eoa previousEnd : ℕ}
    (h : AscendingExtents (sections.map Prod.snd)) (hstop : ∀ s ∈ sections, s.2.stop ≤ eoa)
    (hstart : ∀ s ∈ sections, previousEnd ≤ s.2.start) :
    admitSections eoa previousEnd sections = sections := by
  induction sections generalizing previousEnd with
  | nil => rfl
  | cons s rest ih =>
    obtain ⟨hs, hrest⟩ := pairwise_cons.mp h
    have h1 := hstop s (by simp)
    have h2 := hstart s (by simp)
    rw [admitSections, if_neg (by omega), ih hrest (fun t ht => hstop t (by simp [ht]))
      fun t ht => hs t.2 (mem_map_of_mem ht)]

def kindExtents (strategy : FileSpaceStrategy) (sections : List (ℕ × StoredSection)) :
    List (Option ManagerKind × Extent) :=
  (slotExtents sections).map fun s => (managerKind strategy s.1, s.2)

def Enabled (strategy : FileSpaceStrategy) : Prop := strategy = .fsmAggr ∨ strategy = .page

variable {sort : UnstableSort} {info : FileSpaceInfo} {file : OpenedFile}

/-- The ordered sections are those that the file records. -/
lemma orderedSections_perm (h : Enabled info.strategy) (sections : List (ℕ × StoredSection)) :
    (orderedSections sort info (decide (info.strategy = .page)) sections).Perm
      (kindExtents info.strategy sections) := by
  simp only [orderedSections, kindExtents, slotExtents, map_filterMap, Option.map_map]
  rcases h with h | h
  · rw [h]
    refine ((sort.perm _ _).filterMap _).trans ?_
    rw [filterMap_map]
    exact List.Perm.refl _
  · rw [h]
    exact sort.perm _ _

lemma orderedSections_sorted (sort : UnstableSort) (info : FileSpaceInfo) (paged : Bool)
    (sections : List (ℕ × StoredSection)) :
    (orderedSections sort info paged sections).Pairwise fun a b => a.2.start ≤ b.2.start := by
  unfold orderedSections
  split
  · exact sort.sorted _ _
  refine pairwise_filterMap.mpr ((sort.sorted _ _).imp fun {s t} hst a ha b hb => ?_)
  obtain ⟨e, he, rfl⟩ := Option.map_eq_some_iff.mp ha
  obtain ⟨e', he', rfl⟩ := Option.map_eq_some_iff.mp hb
  have h1 := (Extent.new_eq_some.mp he).1
  have h2 := (Extent.new_eq_some.mp he').1
  show e.start ≤ e'.start
  omega

/-! ## What a file records -/

/-- The sections recovery hands to the session: none if a manager cannot be read, and else those
inside the file that overlap no section admitted before. -/
def OpenedFile.admittedSections (file : OpenedFile) (sort : UnstableSort) (info : FileSpaceInfo) :
    List (Option ManagerKind × Extent) :=
  match file.endOfAllocation, file.recordedSections info with
  | .ok eoa, .ok sections =>
    admitSections eoa 0 (orderedSections sort info (decide (info.strategy = .page)) sections)
  | _, _ => []

def OpenedFile.metadataBlocks (file : OpenedFile) (info : FileSpaceInfo)
    (extension : Except Error (List FileRange)) : List Extent :=
  (extension.toOption.getD []).filterMap file.storedExtent ++
    info.slots.flatMap fun m => file.managerBlocks m.2

lemma OpenedFile.endOfAllocation_eq (file : OpenedFile) :
    file.endOfAllocation = .ok (file.source.len - file.base) :=
  relative_eq_ok.mpr ⟨file.base_le, rfl⟩

/-- The state of a session whose space and blocks come from what the file records. -/
structure Recovered (file : OpenedFile) (sort : UnstableSort) (info : FileSpaceInfo)
    (extension : Except Error (List FileRange)) (state : SessionState) : Prop where
  disjoint : state.space.reusableSections.Pairwise fun a b => Disjoint a.bytes b.bytes
  bytes : covered state.space.reusableSections =
    reusableBytes info.strategy info.pageSize (file.admittedSections sort info)
  blocks : state.persist = some ⟨info.strategy, info.threshold, info.pageSize,
    file.metadataBlocks info extension⟩

/-! ## The tolerant open -/

lemma recoveredSpace_spec (info : FileSpaceInfo) (h : AscendingExtents (sections.map Prod.snd)) :
    ∃ space, recoveredSpace info sections = .ok (.ok space) ∧
      DisjointExtents space.reusableSections ∧
      covered space.reusableSections = reusableBytes info.strategy info.pageSize sections := by
  obtain ⟨space, hspace, hdisj, hbytes⟩ :=
    SessionSpace.fromPersisted_spec info.strategy info.threshold info.pageSize h
  refine ⟨space, ?_, hdisj, hbytes⟩
  simp only [recoveredSpace, hspace, ok_bind, Except.mapError]

lemma reusableSections_fromStrategy (strategy : FileSpaceStrategy) (threshold : ℕ)
    (pageSize : FileSpacePageSize) :
    (SessionSpace.fromStrategy (some strategy) threshold pageSize).reusableSections = [] := by
  cases strategy <;> rfl

lemma loadTolerant_spec (state : SessionState) (extension : Except Error (List FileRange)) :
    ∃ state', loadTolerant sort file state info
        (SessionSpace.fromStrategy (some info.strategy) info.threshold info.pageSize)
        extension.toOption = .ok (.ok state') ∧ Recovered file sort info extension state' := by
  unfold loadTolerant
  have hpaged : (SessionSpace.fromStrategy (some info.strategy) info.threshold info.pageSize).isPaged =
      decide (info.strategy = .page) := by
    cases info.strategy <;> rfl
  simp only [file.endOfAllocation_eq, hpaged]
  cases hsections : file.recordedSections info with
  | error error =>
    refine ⟨_, rfl, ?_, ?_, rfl⟩
    · rw [reusableSections_fromStrategy]
      exact List.Pairwise.nil
    · rw [reusableSections_fromStrategy, OpenedFile.admittedSections, hsections]
      simp [reusableBytes]
  | ok sections =>
    obtain ⟨hasc, -⟩ := admitSections_spec (file.source.len - file.base) 0
      (orderedSections sort info (decide (info.strategy = .page)) sections)
    obtain ⟨space, hspace, hdisj, hbytes⟩ := recoveredSpace_spec info hasc
    refine ⟨{ state with
      space := space
      persist := some ⟨info.strategy, info.threshold, info.pageSize,
        file.metadataBlocks info extension⟩ }, ?_, hdisj, ?_, rfl⟩
    · simp only [hspace, ok_bind]
      rfl
    · rw [OpenedFile.admittedSections, hsections, file.endOfAllocation_eq]
      exact hbytes

/-! ## The strict open -/

lemma orInternal_eq_ok {α : Type} {o : Option α} {reason : String} {a : α}
    (h : orInternal o reason = .ok a) : o = some a := by
  cases o with
  | none => cases h
  | some b =>
    cases h
    rfl

lemma storedExtents_eq_ok {ranges : List FileRange} (h : file.storedExtents ranges = .ok blocks) :
    blocks = ranges.filterMap file.storedExtent := by
  unfold OpenedFile.storedExtents at h
  induction ranges generalizing blocks with
  | nil =>
    cases h
    rfl
  | cons range rest ih =>
    rw [mapM_cons] at h
    obtain ⟨b, hb, h⟩ := bind_eq_ok.mp h
    obtain ⟨bs, hbs, h⟩ := bind_eq_ok.mp h
    cases h
    rw [filterMap_cons_some (orInternal_eq_ok hb), ih hbs]

/-- Checked sections are extents again. -/
lemma tagged_eq_ok (report : PersistedFreeSections) (strategy : FileSpaceStrategy) :
    report.tagged strategy = .ok (report.managers.flatMap fun m =>
      m.freeSections.sections.map fun e => (managerKind strategy m.slot, e)) := by
  have hself : ∀ l : List (Option ManagerKind × Extent), l.mapM (fun s => do
      let extent ← orInternal (Extent.new s.2.start s.2.len)
        "a checked free section has no allocator extent"
      (.ok (s.1, extent) : Except Error _)) = .ok l := by
    intro l
    induction l with
    | nil => rfl
    | cons s rest ih =>
      rw [mapM_cons, ih, Extent.new_eq_some.mpr ⟨rfl, rfl⟩]
      rfl
  exact hself _

lemma filterMap_readBlocks {slots : List (ℕ × ℕ)}
    (h : ∀ m ∈ slots, ∃ sections, file.slotSections m = .ok sections) :
    (slots.flatMap fun m => file.readBlocks m.2).filterMap file.storedExtent =
      slots.flatMap fun m => file.managerBlocks m.2 := by
  induction slots with
  | nil => rfl
  | cons m rest ih =>
    obtain ⟨hm, hrest⟩ := forall_mem_cons.mp h
    obtain ⟨sections, hsections⟩ := hm
    obtain ⟨⟨stored, blocks⟩, hread, -⟩ := bind_eq_ok.mp hsections
    have hblocks : file.readBlocks m.2 = blocks := by rw [OpenedFile.readBlocks, hread]
    have hmanager : file.managerBlocks m.2 = blocks.filterMap file.storedExtent := by
      rw [OpenedFile.managerBlocks, hread]
    rw [flatMap_cons, filterMap_append, flatMap_cons, hblocks, hmanager, ih hrest]

lemma ascending_kindExtents {strategy : FileSpaceStrategy} {sections : List (ℕ × StoredSection)}
    {l : List (Option ManagerKind × Extent)} (hs : l.Pairwise fun a b => a.2.start ≤ b.2.start)
    (hperm : l.Perm (kindExtents strategy sections))
    (hdisj : DisjointExtents ((slotExtents sections).map Prod.snd)) :
    AscendingExtents (l.map Prod.snd) := by
  refine FreeList.ascending_of_sorted (pairwise_map.mpr hs) (hperm.map Prod.snd) ?_
  rwa [kindExtents, map_map]

/-- On a file that the strict reader accepts, admission takes every section. -/
lemma admittedSections_of_strict (henabled : Enabled info.strategy)
    {sections : List (ℕ × StoredSection)} (hsections : file.recordedSections info = .ok sections)
    (hdisj : DisjointExtents ((slotExtents sections).map Prod.snd))
    (hwithin : ∀ s ∈ slotExtents sections, s.2.stop + file.base ≤ file.source.len) :
    (file.admittedSections sort info).Perm (kindExtents info.strategy sections) := by
  have hperm := @orderedSections_perm sort info henabled sections
  have hasc := ascending_kindExtents (orderedSections_sorted sort info _ sections) hperm hdisj
  unfold OpenedFile.admittedSections
  rw [hsections, file.endOfAllocation_eq]
  show (admitSections _ _ _).Perm _
  rw [admitSections_of_ascending hasc ?_ fun _ _ => Nat.zero_le _]
  · exact hperm
  · intro s hs
    obtain ⟨t, ht, rfl⟩ := mem_map.mp (hperm.mem_iff.mp hs)
    have := hwithin t ht
    show t.2.stop ≤ _
    omega

lemma installPersistedFreeSpace_spec (henabled : Enabled info.strategy)
    {extension : Except Error (List FileRange)} {recovered : PersistedRecovery}
    (hread : PersistedRecovery.read sort file info extension = .ok recovered)
    (state : SessionState) :
    ∃ result, installPersistedFreeSpace sort file state info recovered = .ok result ∧
      ∀ state', result = .ok state' → Recovered file sort info extension state' := by
  obtain ⟨storedEof, -, hread⟩ := bind_eq_ok.mp hread
  obtain ⟨managers, hmanagers, hread⟩ := bind_eq_ok.mp hread
  obtain ⟨ranges, hranges, hread⟩ := bind_eq_ok.mp hread
  split at hread
  · cases hread
  cases hread
  obtain ⟨sections, hsections, hallocations, hperm, hdisj, hwithin⟩ :=
    PersistedManagerSet.read_eq_ok hmanagers
  have hadm := @admittedSections_of_strict sort info file henabled sections hsections hdisj hwithin
  unfold installPersistedFreeSpace
  cases hblocks : file.storedExtents (ranges ++ managers.allocations) with
  | error error => exact ⟨_, rfl, fun state' h => by cases h⟩
  | ok blocks =>
    obtain ⟨tagged, htagged⟩ : ∃ tagged, tagged = managers.report.managers.flatMap fun m =>
      m.freeSections.sections.map fun e => (managerKind info.strategy m.slot, e) := ⟨_, rfl⟩
    have hkind : tagged.Perm (kindExtents info.strategy sections) := by
      have := hperm.map fun s => (managerKind info.strategy s.1, s.2)
      rw [map_flatMap] at this
      rw [htagged]
      simpa [kindExtents, Function.comp_def] using this
    have hsort := (sort.perm (fun s => s.2.start) tagged).trans hkind
    have hasc := ascending_kindExtents (sort.sorted _ _) hsort hdisj
    obtain ⟨space, hspace, hsdisj, hbytes⟩ := recoveredSpace_spec info hasc
    refine ⟨.ok { state with
      space := space
      persist := some ⟨info.strategy, info.threshold, info.pageSize, blocks⟩ }, ?_, ?_⟩
    · simp only [tagged_eq_ok, ← htagged, hspace, ok_bind]
    · intro state' h
      cases h
      refine ⟨hsdisj, ?_, ?_⟩
      · rw [hbytes]
        ext x
        simp only [reusableBytes, (hsort.trans hadm.symm).mem_iff]
      · obtain ⟨lists, hlists, -⟩ := bind_eq_ok.mp hsections
        show some _ = some _
        rw [storedExtents_eq_ok hblocks, filterMap_append, hallocations,
          filterMap_readBlocks (except_mapM_mem hlists), OpenedFile.metadataBlocks, hranges]
        rfl

/-! ## Either open -/

/-- An open that persists free space recovers what the file records, or fails. -/
lemma recoverFreeSpace_spec (sort : UnstableSort) (policy : PersistedFreeSpacePolicy)
    (file : OpenedFile) (state : SessionState) (extension : Except Error (List FileRange))
    (hpersist : info.persist = true) (henabled : Enabled info.strategy) :
    ∃ result, recoverFreeSpace sort policy file state (some info) extension = .ok result ∧
      ∀ state', result = .ok state' → Recovered file sort info extension state' := by
  have hspace : (SessionSpace.fromStrategy (some info.strategy) info.threshold
      info.pageSize).isEnabled = true := by
    rcases henabled with h | h <;> rw [h] <;> rfl
  have hpersisted : ¬((!info.persist || !(SessionSpace.fromStrategy (some info.strategy)
      info.threshold info.pageSize).isEnabled) = true) := by
    rw [hpersist, hspace]
    decide
  unfold recoverFreeSpace
  rw [Option.filter_some, if_pos hpersist]
  cases policy with
  | strict =>
    simp only
    cases hread : PersistedRecovery.read sort file info extension with
    | error error => exact ⟨_, rfl, fun state' h => by cases h⟩
    | ok recovered =>
      obtain ⟨result, hres, hrec⟩ := installPersistedFreeSpace_spec henabled hread _
      exact ⟨result, Eq.trans (if_neg hpersisted) hres, hrec⟩
  | tolerant =>
    obtain ⟨state', hstate', hrec⟩ := @loadTolerant_spec sort info file _ extension
    refine ⟨_, Eq.trans (if_neg hpersisted) hstate', fun state'' h => ?_⟩
    cases h
    exact hrec

/-- The blocks a session records as its own: extension chunks, and the header and section list of
the manager in a slot. -/
inductive BlockName where
  | extension (index : ℕ)
  | manager (slot index : ℕ)
deriving DecidableEq, Repr

def OpenedFile.Occupies (file : OpenedFile) (info : FileSpaceInfo)
    (extension : Except Error (List FileRange)) : BlockName → Extent → Prop
  | .extension index, b =>
    ∃ ranges, extension = .ok ranges ∧ (ranges.filterMap file.storedExtent)[index]? = some b
  | .manager slot index, b =>
    ∃ addr, info.managerAddrs[slot]? = some (some addr) ∧ (file.managerBlocks addr)[index]? = some b

/-- The file keeps its metadata blocks apart from each other and from the free sections admitted. -/
structure RecordedApart (sort : UnstableSort) (file : OpenedFile) (info : FileSpaceInfo)
    (extension : Except Error (List FileRange)) : Prop where
  blocks : ∀ n n' b b', n ≠ n' → file.Occupies info extension n b →
    file.Occupies info extension n' b' → Disjoint b.bytes b'.bytes
  sections : ∀ n b, file.Occupies info extension n b → ∀ s ∈ file.admittedSections sort info,
    ∀ part ∈ reusablePart info.strategy info.pageSize s, Disjoint part.bytes b.bytes

/-- The session hands out nothing twice: its reusable extents and the blocks its next commit frees
are disjoint and inside the file. A tolerant open reuses nothing of a file with an unreadable
manager. -/
structure OwnedOnce (policy : PersistedFreeSpacePolicy) (file : OpenedFile) (info : FileSpaceInfo)
    (state : SessionState) : Prop where
  reusable : state.space.reusableSections.Pairwise fun a b => Disjoint a.bytes b.bytes
  bounded : ∀ eoa, file.endOfAllocation = .ok eoa →
    ∀ e ∈ state.space.reusableSections, e.stop ≤ eoa
  blocks : ∀ persist ∈ state.persist, persist.oldBlocks.Pairwise fun a b => Disjoint a.bytes b.bytes
  apart : ∀ persist ∈ state.persist, ∀ e ∈ state.space.reusableSections, ∀ b ∈ persist.oldBlocks,
    Disjoint e.bytes b.bytes
  unreadable : policy = .tolerant → (∃ (slot addr : ℕ) (error : FormatError),
    info.managerAddrs[slot]? = some (some addr) ∧ file.readPersistedSections addr = .error error) → state.space.reusableSections = []

/-! ### Naming the blocks -/

lemma mem_slotsFrom {addrs : List (Option ℕ)} {first slot addr : ℕ} :
    (slot, addr) ∈ slotsFrom first addrs ↔ first ≤ slot ∧ addrs[slot - first]? = some (some addr) := by
  induction addrs generalizing first with
  | nil => simp [slotsFrom]
  | cons a rest ih =>
    have hcons : (slot, addr) ∈ slotsFrom first (a :: rest) ↔
        slot = first ∧ a = some addr ∨ (slot, addr) ∈ slotsFrom (first + 1) rest := by
      cases a <;> simp [slotsFrom, eq_comm]
    rw [hcons, ih]
    rcases lt_trichotomy slot first with hlt | rfl | hgt
    · simp only [hlt.ne, hlt.not_ge, false_and, false_or, iff_false, not_and]
      omega
    · simp
    · rw [show slot - first = slot - (first + 1) + 1 by omega, getElem?_cons_succ]
      simp [hgt.ne', hgt.le, Nat.succ_le_of_lt hgt]

lemma nodup_slotsFrom (first : ℕ) (addrs : List (Option ℕ)) :
    ((slotsFrom first addrs).map Prod.fst).Nodup := by
  induction addrs generalizing first with
  | nil => exact nodup_nil
  | cons a rest ih =>
    cases a with
    | none => exact ih (first + 1)
    | some address =>
      refine nodup_cons.mpr ⟨fun h => ?_, ih (first + 1)⟩
      obtain ⟨⟨slot, addr⟩, hmem, rfl⟩ := mem_map.mp h
      have := (mem_slotsFrom.mp hmem).1
      omega

def indexed (name : ℕ → BlockName) (blocks : List Extent) : List (BlockName × Extent) :=
  blocks.zipIdx.map fun p => (name p.2, p.1)

lemma indexed_map_snd (name : ℕ → BlockName) (blocks : List Extent) :
    (indexed name blocks).map Prod.snd = blocks := by
  rw [indexed, map_map]
  exact zipIdx_map_fst 0 blocks

lemma indexed_map_fst (name : ℕ → BlockName) (blocks : List Extent) :
    (indexed name blocks).map Prod.fst = (range' 0 blocks.length).map name := by
  rw [indexed, map_map, ← zipIdx_map_snd 0 blocks, map_map]
  rfl

variable {n : BlockName}

lemma mem_indexed {name : ℕ → BlockName} :
    (n, b) ∈ indexed name blocks ↔ ∃ k, n = name k ∧ blocks[k]? = some b := by
  rw [indexed, mem_map]
  simp [mem_zipIdx_iff_getElem?, and_comm, eq_comm]

def OpenedFile.namedBlocks (file : OpenedFile) (info : FileSpaceInfo)
    (extension : Except Error (List FileRange)) : List (BlockName × Extent) :=
  indexed .extension ((extension.toOption.getD []).filterMap file.storedExtent) ++
    info.slots.flatMap fun m => indexed (.manager m.1) (file.managerBlocks m.2)

section Named

variable {file : OpenedFile} {info : FileSpaceInfo} {extension : Except Error (List FileRange)}

lemma namedBlocks_map_snd :
    (file.namedBlocks info extension).map Prod.snd = file.metadataBlocks info extension := by
  rw [OpenedFile.namedBlocks, map_append, indexed_map_snd, map_flatMap]
  simp only [indexed_map_snd]
  rfl

lemma mem_namedBlocks :
    (n, b) ∈ file.namedBlocks info extension ↔ file.Occupies info extension n b := by
  rw [OpenedFile.namedBlocks, mem_append, mem_indexed, mem_flatMap]
  constructor
  · rintro (⟨k, rfl, hk⟩ | ⟨⟨slot, addr⟩, hslot, hmem⟩)
    · cases extension with
      | error e => simp [Except.toOption] at hk
      | ok ranges => exact ⟨ranges, rfl, hk⟩
    · obtain ⟨k, rfl, hk⟩ := mem_indexed.mp hmem
      exact ⟨addr, (mem_slotsFrom.mp hslot).2, hk⟩
  · intro h
    cases n with
    | extension k =>
      obtain ⟨ranges, rfl, hk⟩ := h
      exact .inl ⟨k, rfl, hk⟩
    | manager slot k =>
      obtain ⟨addr, haddr, hk⟩ := h
      exact .inr ⟨(slot, addr), mem_slotsFrom.mpr ⟨Nat.zero_le _, haddr⟩,
        mem_indexed.mpr ⟨k, rfl, hk⟩⟩

lemma nodup_names : ((file.namedBlocks info extension).map Prod.fst).Nodup := by
  have hidx : ∀ {name : ℕ → BlockName}, Function.Injective name → ∀ blocks : List Extent,
      ((indexed name blocks).map Prod.fst).Nodup := by
    intro name hname blocks
    rw [indexed_map_fst]
    exact List.Nodup.map hname (nodup_range' ..)
  have hname : ∀ {name : ℕ → BlockName} {blocks n}, n ∈ (indexed name blocks).map Prod.fst →
      ∃ k, n = name k := by
    intro name blocks n hn
    rw [indexed_map_fst] at hn
    obtain ⟨k, -, hk⟩ := mem_map.mp hn
    exact ⟨k, hk.symm⟩
  rw [OpenedFile.namedBlocks, map_append, map_flatMap]
  refine nodup_append.mpr ⟨hidx (fun a b h => by cases h; rfl) _, ?_, ?_⟩
  · refine nodup_flatMap.mpr ⟨fun m _ => hidx (fun a b h => by cases h; rfl) _, ?_⟩
    -- managers of different slots have different names
    refine (pairwise_map.mp (nodup_slotsFrom 0 info.managerAddrs)).imp fun {m m'} hne => ?_
    intro n hn hn'
    obtain ⟨k, rfl⟩ := hname hn
    obtain ⟨k', hk'⟩ := hname hn'
    exact hne (BlockName.manager.inj hk').1
  · intro n hn n' hn' heq
    obtain ⟨m, -, hm⟩ := mem_flatMap.mp hn'
    obtain ⟨k, rfl⟩ := hname hn
    obtain ⟨k', rfl⟩ := hname hm
    cases heq

lemma metadataBlocks_pairwise : DisjointExtents (file.metadataBlocks info extension) ↔
      ∀ n n' b b', n ≠ n' → file.Occupies info extension n b →
        file.Occupies info extension n' b' → Disjoint b.bytes b'.bytes := by
  rw [← namedBlocks_map_snd, DisjointExtents, pairwise_map]
  constructor
  · intro h n n' b b' hne hb hb'
    exact h.forall (mem_namedBlocks.mpr hb) (mem_namedBlocks.mpr hb')
      fun heq => hne (congrArg Prod.fst heq)
  · intro h
    refine (pairwise_map.mp nodup_names).imp_of_mem fun {p q} hp hq hne => ?_
    exact h p.1 q.1 p.2 q.2 hne (mem_namedBlocks.mp hp) (mem_namedBlocks.mp hq)

lemma mem_metadataBlocks :
    b ∈ file.metadataBlocks info extension ↔ ∃ n, file.Occupies info extension n b := by
  simp only [← namedBlocks_map_snd, mem_map, Prod.exists, mem_namedBlocks, exists_eq_right]

end Named

/-! ### The main result -/

namespace Recovered

variable {file : OpenedFile} {sort : UnstableSort} {info : FileSpaceInfo}
  {extension : Except Error (List FileRange)} {state : SessionState}

/-- Reusable extents lie in admitted sections, so below the end of allocation. -/
lemma bounded (h : Recovered file sort info extension state) {eoa : ℕ}
    (heoa : file.endOfAllocation = .ok eoa) : ∀ e ∈ state.space.reusableSections, e.stop ≤ eoa := by
  intro e he
  have hpos := e.start_lt_stop
  have hlast : e.stop - 1 ∈ covered state.space.reusableSections :=
    mem_covered.mpr ⟨e, he, by omega, by omega⟩
  rw [h.bytes] at hlast
  obtain ⟨s, hs, part, hpart, hx⟩ := hlast
  have hx' := Extent.mem_bytes.mp hx
  have hin := reusablePart_within hpart
  unfold OpenedFile.admittedSections at hs
  rw [heoa] at hs
  cases hsections : file.recordedSections info with
  | error error =>
    rw [hsections] at hs
    cases hs
  | ok sections =>
    rw [hsections] at hs
    have := ((admitSections_spec _ _ _).2 s hs).2
    omega

/-- No reusable extent overlaps a block if and only if no reusable part does. -/
lemma apart_iff (h : Recovered file sort info extension state) :
    (∀ e ∈ state.space.reusableSections, ∀ b ∈ file.metadataBlocks info extension,
      Disjoint e.bytes b.bytes) ↔
    ∀ n b, file.Occupies info extension n b → ∀ s ∈ file.admittedSections sort info,
      ∀ part ∈ reusablePart info.strategy info.pageSize s, Disjoint part.bytes b.bytes := by
  have hparts : ∀ b : Extent, (∀ e ∈ state.space.reusableSections, Disjoint e.bytes b.bytes) ↔
      ∀ s ∈ file.admittedSections sort info, ∀ part ∈ reusablePart info.strategy info.pageSize s,
        Disjoint part.bytes b.bytes := by
    intro b
    rw [← disjoint_covered_left, h.bytes]
    simp only [Set.disjoint_left]
    exact ⟨fun hx s hs part hpart x hxp => hx ⟨s, hs, part, hpart, hxp⟩,
      fun hx x ⟨s, hs, part, hpart, hxp⟩ => hx s hs part hpart hxp⟩
  constructor
  · intro hapart n b hb
    exact (hparts b).mp fun e he => hapart e he b (mem_metadataBlocks.mpr ⟨n, hb⟩)
  · intro hapart e he b hb
    obtain ⟨n, hn⟩ := mem_metadataBlocks.mp hb
    exact (hparts b).mpr (hapart n b hn) e he

end Recovered

lemma admittedSections_of_unreadable {slot addr : ℕ} {error : FormatError}
    (hslot : info.managerAddrs[slot]? = some (some addr))
    (hread : file.readPersistedSections addr = .error error) :
    file.admittedSections sort info = [] := by
  unfold OpenedFile.admittedSections
  cases hsections : file.recordedSections info with
  | error e =>
    cases file.endOfAllocation <;> rfl
  | ok sections =>
    obtain ⟨lists, hlists, -⟩ := bind_eq_ok.mp hsections
    obtain ⟨l, hl⟩ := except_mapM_mem hlists (slot, addr)
      (mem_slotsFrom.mpr ⟨Nat.zero_le _, hslot⟩)
    obtain ⟨read, hok, -⟩ := bind_eq_ok.mp hl
    rw [hread] at hok
    cases hok

/-- An open that recovers persisted free space hands out nothing twice if and only if the file keeps
its metadata blocks apart from each other and from the free sections it records. -/
theorem recovered_once_iff (sort : UnstableSort) (policy : PersistedFreeSpacePolicy)
    (file : OpenedFile) (state : SessionState) (info : FileSpaceInfo)
    (extension : Except Error (List FileRange)) (hpersist : info.persist = true)
    (henabled : Enabled info.strategy) :
    ∃ result, recoverFreeSpace sort policy file state (some info) extension = .ok result ∧
      ∀ state', result = .ok state' →
        (OwnedOnce policy file info state' ↔ RecordedApart sort file info extension) := by
  obtain ⟨result, hres, hrec⟩ :=
    recoverFreeSpace_spec sort policy file state extension hpersist henabled
  refine ⟨result, hres, fun state' hstate' => ?_⟩
  have h := hrec state' hstate'
  constructor
  · intro howned
    exact ⟨metadataBlocks_pairwise.mp (howned.blocks _ h.blocks),
      h.apart_iff.mp (howned.apart _ h.blocks)⟩
  · intro hapart
    refine ⟨h.disjoint, fun eoa heoa => h.bounded heoa, ?_, ?_, ?_⟩
    · intro persist hmem
      cases h.blocks.symm.trans hmem
      exact metadataBlocks_pairwise.mpr hapart.blocks
    · intro persist hmem
      cases h.blocks.symm.trans hmem
      exact h.apart_iff.mpr hapart.sections
    · rintro - ⟨slot, addr, error, hslot, hread⟩
      refine eq_nil_iff_forall_not_mem.mpr fun e he => ?_
      have hmem := bytes_subset_covered he ⟨le_rfl, e.start_lt_stop⟩
      rw [h.bytes, admittedSections_of_unreadable hslot hread] at hmem
      obtain ⟨s, hs, -⟩ := hmem
      cases hs

/-! ### A manager whose section is its own header -/

def withChecksum (body : Bytes) : Bytes :=
  body ++ leBytes 4 (jenkinsLookup3 body).toNat

/-- A file of 265 bytes with a manager header at 48 and its section list at 130, which records one
free section. -/
def managerFile (addr size : ℕ) : OpenedFile where
  source := .ofBytes (replicate 48 0 ++
    withChecksum (fshdSignature ++ [0, 1] ++ leBytes 8 size ++ leBytes 8 1 ++ leBytes 8 1 ++
      leBytes 8 0 ++ leBytes 2 3 ++ leBytes 2 80 ++ leBytes 2 120 ++ leBytes 2 63 ++
      leBytes 8 (2 ^ 63 - 1) ++ leBytes 8 130 ++ leBytes 8 35 ++ leBytes 8 35) ++
    withChecksum (fsseSignature ++ [0] ++ leBytes 8 48 ++ leBytes 1 1 ++ leBytes 8 size ++
      leBytes 8 addr ++ [0]) ++ replicate 100 0)
  widths := ⟨.eight, .eight⟩
  base := 0
  eofAddress := 265
  base_le := Nat.zero_le _

def managerInfo (managerAddrs : List (Option ℕ)) : FileSpaceInfo :=
  ⟨.fsmAggr, true, 1, ⟨4096, by decide, by decide⟩, managerAddrs⟩

def openingState : SessionState := ⟨.disabled, none, none⟩

def reusingState (e : Extent) (oldBlocks : List Extent) : SessionState :=
  ⟨.flat ⟨⟨[e], e.len⟩, 1⟩, some 265,
    some ⟨.fsmAggr, 1, ⟨4096, by decide, by decide⟩, oldBlocks⟩⟩

def extensionChunk : FileRange := ⟨215, 50, by decide⟩

def managerExtents : List Extent :=
  [⟨48, 82, by decide, by decide⟩, ⟨130, 35, by decide, by decide⟩]

def blockExtents : List Extent := ⟨215, 50, by decide, by decide⟩ :: managerExtents

/-- A file whose manager records space of its own is recovered with nothing owned twice, so its
blocks are apart. -/
theorem recovered_once_iff_apart :
    RecordedApart .insertion (managerFile 165 50) (managerInfo [some 48])
      (.ok [extensionChunk]) := by
  obtain ⟨result, hres, hiff⟩ := recovered_once_iff .insertion .strict (managerFile 165 50)
    openingState (managerInfo [some 48]) (.ok [extensionChunk]) rfl (.inl rfl)
  have hstate : recoverFreeSpace .insertion .strict (managerFile 165 50) openingState
      (some (managerInfo [some 48])) (.ok [extensionChunk]) =
      .ok (.ok (reusingState ⟨165, 50, by decide, by decide⟩ blockExtents)) := by
    decide +kernel
  refine (hiff _ (Except.ok.inj (hres.symm.trans hstate))).mp ⟨?_, ?_, ?_, ?_, ?_⟩
  · exact pairwise_singleton _ _
  · intro eoa heoa e he
    cases (managerFile 165 50).endOfAllocation_eq.symm.trans heoa
    cases mem_singleton.mp he
    decide +kernel
  · rintro _ ⟨⟩
    simp only [blockExtents, managerExtents, Extent.disjoint_iff]
    decide
  · rintro _ ⟨⟩ e he b hb
    cases mem_singleton.mp he
    simp only [Extent.disjoint_iff]
    revert b
    decide
  · intro h
    cases h

/-- Either open hands out a manager header again that the manager itself records as free, although
the next commit frees that header. A strict open also accepts a manager that records the extension
as free, and a tolerant one the same manager in two slots. -/
theorem recovered_manager_reused :
    (∀ policy, ∃ state', recoverFreeSpace .insertion policy (managerFile 48 82) openingState
        (some (managerInfo [some 48])) (.ok [extensionChunk]) = .ok (.ok state') ∧
      ¬OwnedOnce policy (managerFile 48 82) (managerInfo [some 48]) state') ∧
    (∃ state', recoverFreeSpace .insertion .strict (managerFile 215 50) openingState
        (some (managerInfo [some 48])) (.ok [extensionChunk]) = .ok (.ok state') ∧
      ¬OwnedOnce .strict (managerFile 215 50) (managerInfo [some 48]) state') ∧
    ∃ state', recoverFreeSpace .insertion .tolerant (managerFile 165 50) openingState
        (some (managerInfo [some 48, some 48])) (.ok [extensionChunk]) = .ok (.ok state') ∧
      ¬OwnedOnce .tolerant (managerFile 165 50) (managerInfo [some 48, some 48]) state' := by
  refine ⟨fun policy => ⟨reusingState ⟨48, 82, by decide, by decide⟩ blockExtents, ?_, fun h => ?_⟩,
    ⟨reusingState ⟨215, 50, by decide, by decide⟩ blockExtents, by decide +kernel, fun h => ?_⟩,
    reusingState ⟨165, 50, by decide, by decide⟩ (blockExtents ++ managerExtents),
    by decide +kernel, fun h => ?_⟩
  · cases policy
    · decide +kernel
    · decide +kernel
  · have := h.apart _ rfl _ (mem_singleton.mpr rfl) _ (mem_cons_of_mem _ (mem_cons_self ..))
    rw [Extent.disjoint_iff] at this
    exact absurd this (by decide)
  · have := h.apart _ rfl _ (mem_singleton.mpr rfl) _ (mem_cons_self ..)
    rw [Extent.disjoint_iff] at this
    exact absurd this (by decide)
  · have := h.blocks _ rfl
    simp only [blockExtents, managerExtents, Extent.disjoint_iff] at this
    exact absurd this (by decide)

end Hdf5Pure.FreeSpace
