import Hdf5Pure.Space.PersistedTheorems
import Hdf5Pure.Space.PersistenceTheorems

/-!
# Free space across a reopen

A PAGE session is persisted as manager sections and opened again from them. Whole pages become raw,
and the parts of other pages keep their class, so that a second round trip changes nothing.
-/

namespace Hdf5Pure.Space

open Checked IntervalLists List

/-! ## Sections in bytes -/

lemma covered_left_of_perm {a b c : List Extent} (h : (a ++ b).Perm c)
    (hc : DisjointExtents c) : covered a = covered c \ covered b := by
  have hdisj : Disjoint (covered a) (covered b) := by
    obtain ⟨-, -, hcross⟩ := pairwise_append.mp
      ((h.pairwise_iff fun {_ _} hab => hab.symm).mpr hc)
    exact disjoint_covered_left.mpr fun e he => disjoint_covered_right.mpr (hcross e he)
  rw [← FreeList.covered_perm h, covered_append, Set.union_sdiff_right, hdisj.sdiff_eq_left]

lemma pagesWithin_union {ps : ℕ} {s w : Set ℕ} (hw : WholePages ps w) :
    pagesWithin ps (s ∪ w) = pagesWithin ps s ∪ w := by
  ext x
  constructor
  · intro hx
    by_cases hxw : x ∈ w
    · exact .inr hxw
    · refine .inl fun y hy => (hx y hy).resolve_right fun hyw => hxw ?_
      exact hw y hyw x hy.symm
  · rintro (hx | hx) y hy
    · exact .inl (hx y hy)
    · exact .inr (hw x hx y hy)

variable {x : ℕ} {managers : List ManagerSections} {ty : Option PageType}

namespace ManagerSections

lemma interior_eq (e : Extent) (pageSize : FileSpacePageSize) :
    (PageParts.new e pageSize).interior = e.alignedInterior pageSize.get := by
  unfold PageParts.new
  cases e.alignedInterior pageSize.get <;> rfl

lemma mem_wholeSections {pageSize : FileSpacePageSize} {l : List Extent} :
    x ∈ covered (wholeSections pageSize l) ↔ ∃ e ∈ l, x ∈ pagesWithin pageSize.get e.bytes := by
  simp only [mem_covered, wholeSections, mem_flatMap, interior_eq]
  constructor
  · rintro ⟨i, ⟨e, he, hi⟩, hx⟩
    refine ⟨e, he, ?_⟩
    rw [← PageParts.bytes_interior]
    exact mem_covered.mpr ⟨i, hi, hx⟩
  · rintro ⟨e, he, hx⟩
    rw [← PageParts.bytes_interior] at hx
    obtain ⟨i, hi, hx⟩ := mem_covered.mp hx
    exact ⟨i, ⟨e, he, hi⟩, hx⟩

section
variable {pageSize : FileSpacePageSize} {l : FreeList} (hl : l.Canonical)
include hl

/-- The regions of a canonical list are too far apart to share a page. -/
lemma covered_wholeSections :
    covered (wholeSections pageSize l.regions) = pagesWithin pageSize.get l.bytes := by
  have hps := pageSize.get_pos
  rw [FreeList.bytes, ← covered_interiors hps hl.separated]
  ext x
  rw [mem_wholeSections, mem_covered]
  simp only [mem_filterMap, ← PageParts.bytes_interior, mem_covered, Option.mem_toList]
  constructor
  · rintro ⟨e, he, i, hi, hx⟩
    exact ⟨i, ⟨e, he, hi⟩, hx⟩
  · rintro ⟨i, ⟨e, he, hi⟩, hx⟩
    exact ⟨e, he, i, hi, hx⟩

lemma covered_smallSections :
    covered (smallSections pageSize l.regions) = l.bytes \ pagesWithin pageSize.get l.bytes := by
  rw [covered_left_of_perm (smallSections_append_perm pageSize l.regions)
    (pieces_pairwise pageSize hl.pairwise), covered_flatMap_pieces, covered_wholeSections hl]
  rfl

end

lemma pagesWithin_wholeSections {pageSize : FileSpacePageSize} {l : List Extent} {i : Extent}
    (hi : i ∈ wholeSections pageSize l) : pagesWithin pageSize.get i.bytes = i.bytes := by
  obtain ⟨e, -, hi⟩ := mem_flatMap.mp hi
  have hbytes := PageParts.bytes_interior e pageSize
  rw [← interior_eq, Option.mem_toList.mp hi, Option.toList_some, covered_singleton] at hbytes
  refine Set.Subset.antisymm (pagesWithin_subset _ _) fun x hx => ?_
  rw [hbytes] at hx ⊢
  exact wholePages_pagesWithin _ _ x hx

section
variable {pageSize : FileSpacePageSize} {metadata raw unclassified : FreeList}
  {generic : List Extent} (hgeneric : generic.Perm (wholeSections pageSize metadata.regions ++
    wholeSections pageSize raw.regions ++ unclassified.regions))
include hgeneric

/-- The whole pages of the generic sections are those of all the lists. -/
lemma exists_generic_whole (hm : metadata.Canonical) (hr : raw.Canonical)
    (hu : unclassified.Canonical) :
    (∃ e ∈ generic, x ∈ pagesWithin pageSize.get e.bytes) ↔
      x ∈ pagesWithin pageSize.get metadata.bytes ∨ x ∈ pagesWithin pageSize.get raw.bytes ∨
        x ∈ pagesWithin pageSize.get unclassified.bytes := by
  rw [← covered_wholeSections hm, ← covered_wholeSections hr, ← covered_wholeSections hu,
    mem_wholeSections (l := unclassified.regions), mem_covered, mem_covered]
  simp only [hgeneric.mem_iff, mem_append]
  constructor
  · rintro ⟨e, (he | he) | he, hx⟩
    · exact .inl ⟨e, he, hx x rfl⟩
    · exact .inr (.inl ⟨e, he, hx x rfl⟩)
    · exact .inr (.inr ⟨e, he, hx⟩)
  · rintro (⟨e, he, hx⟩ | ⟨e, he, hx⟩ | ⟨e, he, hx⟩)
    · exact ⟨e, .inl (.inl he), (pagesWithin_wholeSections he).ge hx⟩
    · exact ⟨e, .inl (.inr he), (pagesWithin_wholeSections he).ge hx⟩
    · exact ⟨e, .inr he, hx⟩

/-- Only unclassified regions have edges in the generic sections. -/
lemma exists_generic_edge (hu : unclassified.Canonical) :
    (∃ e ∈ generic, x ∈ e.bytes ∧ x ∉ pagesWithin pageSize.get e.bytes) ↔
      x ∈ unclassified.bytes \ pagesWithin pageSize.get unclassified.bytes := by
  rw [Set.mem_sdiff, ← covered_wholeSections hu, mem_wholeSections]
  simp only [hgeneric.mem_iff, mem_append]
  constructor
  · rintro ⟨e, (he | he) | he, hx, hnot⟩
    · exact absurd ((pagesWithin_wholeSections he).ge hx) hnot
    · exact absurd ((pagesWithin_wholeSections he).ge hx) hnot
    · refine ⟨bytes_subset_covered he hx, ?_⟩
      rintro ⟨e', he', hx'⟩
      obtain rfl : e' = e := by
        by_contra hne
        have := hu.separated.apart he' he hne
        have := Extent.mem_bytes.mp (hx' x rfl)
        have := Extent.mem_bytes.mp hx
        omega
      exact hnot hx'
  · rintro ⟨hx, hnot⟩
    obtain ⟨e, he, hxe⟩ := mem_covered.mp hx
    exact ⟨e, .inr he, hxe, fun hw => hnot ⟨e, he, hw⟩⟩

end

def tagged (managers : List ManagerSections) : List (Option ManagerKind × Extent) :=
  managers.flatMap fun manager => manager.sections.map (some manager.kind, ·)

lemma tagged_filter (managers : List ManagerSections) :
    tagged (managers.filter fun manager => !manager.sections.isEmpty) = tagged managers := by
  induction managers with
  | nil => rfl
  | cons manager managers ih =>
    unfold tagged at ih ⊢
    cases hempty : manager.sections <;> simp [hempty, ih]

def sorted (managers : List ManagerSections) : List (Option ManagerKind × Extent) :=
  (tagged managers).mergeSort fun a b => decide (a.2.start ≤ b.2.start)

lemma sorted_filter (managers : List ManagerSections) :
    sorted (managers.filter fun manager => !manager.sections.isEmpty) = sorted managers := by
  rw [sorted, tagged_filter, ← sorted]

lemma mem_sorted {s : Option ManagerKind × Extent} :
    s ∈ sorted managers ↔
      ∃ manager ∈ managers, ∃ e ∈ manager.sections, s = (some manager.kind, e) := by
  simp [sorted, tagged, eq_comm]

lemma sorted_ascending (h : DisjointExtents (managers.flatMap (·.sections))) :
    AscendingExtents ((sorted managers).map Prod.snd) := by
  have hperm : ((sorted managers).map Prod.snd).Perm (managers.flatMap (·.sections)) := by
    refine ((mergeSort_perm _ _).map Prod.snd).trans (List.Perm.of_eq ?_)
    simp [tagged, map_flatMap, Function.comp_def]
  refine FreeList.ascending_of_sorted ?_ hperm h
  exact pairwise_map.mpr (FreeList.pairwise_mergeSort_start Prod.snd _)

end ManagerSections

namespace PagedEdit

variable {pageSize : FileSpacePageSize}

/-- The parts of a generic-large section: its whole pages are raw, the rest has no class. -/
lemma mem_parts_generic {e : Extent} :
    (∃ part, (part, ty) ∈ persistedParts pageSize (some .pagedLargeGeneric) e ∧ x ∈ part.bytes) ↔
      (ty = some .raw ∧ x ∈ pagesWithin pageSize.get e.bytes) ∨
        (ty = none ∧ x ∈ e.bytes ∧ x ∉ pagesWithin pageSize.get e.bytes) := by
  have hinterior := PageParts.bytes_interior e pageSize
  unfold persistedParts
  cases hi : e.alignedInterior pageSize.get with
  | none =>
    rw [hi, Option.toList_none, covered_nil] at hinterior
    simp [← hinterior]
  | some pages =>
    rw [hi, Option.toList_some, covered_singleton] at hinterior
    obtain ⟨-, -, hstart, -, hstop, -⟩ := Extent.alignedInterior_spec hi
    have hpos := pages.start_lt_stop
    have hlimit := e.stop_lt_limit
    have hhead := PageParts.covered_between e.start pages.start (by omega)
    have htail := PageParts.covered_between pages.stop e.stop hlimit
    have hedge : x ∈ e.bytes ∧ x ∉ pages.bytes ↔
        x ∈ covered (Extent.between e.start pages.start).toList ∨
          x ∈ covered (Extent.between pages.stop e.stop).toList := by
      rw [hhead, htail, Extent.mem_bytes, Extent.mem_bytes, Set.mem_Ico, Set.mem_Ico]
      omega
    rw [← hinterior, hedge, mem_covered, mem_covered]
    simp only [mem_append, Option.mem_toList, Option.map_eq_some_iff, mem_singleton,
      Prod.mk.injEq]
    constructor
    · rintro ⟨part, ((⟨q, hq, rfl, rfl⟩ | ⟨rfl, rfl⟩) | ⟨q, hq, rfl, rfl⟩), hx⟩
      · exact .inr ⟨rfl, .inl ⟨q, hq, hx⟩⟩
      · exact .inl ⟨rfl, hx⟩
      · exact .inr ⟨rfl, .inr ⟨q, hq, hx⟩⟩
    · rintro (⟨rfl, hx⟩ | ⟨rfl, ⟨q, hq, hx⟩ | ⟨q, hq, hx⟩⟩)
      · exact ⟨pages, .inl (.inr ⟨rfl, rfl⟩), hx⟩
      · exact ⟨q, .inl (.inl ⟨q, hq, rfl, rfl⟩), hx⟩
      · exact ⟨q, .inr ⟨q, hq, rfl, rfl⟩, hx⟩

/-- The parts of the sections of the three PAGE managers. -/
lemma mem_partBytes_managers {metadata raw generic : List Extent} :
    x ∈ partBytes pageSize (ManagerSections.sorted ([⟨.pagedSmallMetadata, metadata⟩,
        ⟨.pagedSmallRaw, raw⟩, ⟨.pagedLargeGeneric, generic⟩].filter
          fun manager => !manager.sections.isEmpty)) ty ↔
      (ty = some .metadata ∧ x ∈ covered metadata) ∨ (ty = some .raw ∧ x ∈ covered raw) ∨
        ∃ e ∈ generic, (ty = some .raw ∧ x ∈ pagesWithin pageSize.get e.bytes) ∨
          (ty = none ∧ x ∈ e.bytes ∧ x ∉ pagesWithin pageSize.get e.bytes) := by
  rw [ManagerSections.sorted_filter]
  simp only [← mem_parts_generic, partBytes, ManagerSections.mem_sorted, mem_cons,
    not_mem_nil, or_false, exists_eq_or_imp, exists_eq_left, Set.mem_ofPred_eq, mem_covered]
  constructor
  · rintro ⟨_, ⟨e, he, rfl⟩ | ⟨e, he, rfl⟩ | ⟨e, he, rfl⟩, part, hpart, hx⟩
    · cases mem_singleton.mp hpart
      exact .inl ⟨rfl, _, he, hx⟩
    · cases mem_singleton.mp hpart
      exact .inr (.inl ⟨rfl, _, he, hx⟩)
    · exact .inr (.inr ⟨e, he, part, hpart, hx⟩)
  · rintro (⟨rfl, e, he, hx⟩ | ⟨rfl, e, he, hx⟩ | ⟨e, he, part, hpart, hx⟩)
    · exact ⟨_, .inl ⟨e, he, rfl⟩, e, mem_singleton.mpr rfl, hx⟩
    · exact ⟨_, .inr (.inl ⟨e, he, rfl⟩), e, mem_singleton.mpr rfl, hx⟩
    · exact ⟨_, .inr (.inr ⟨e, he, rfl⟩), part, hpart, hx⟩

/-- The lists that a session persists are canonical and share no byte. -/
structure Persistable (paged : PagedEdit) : Prop where
  metadata : paged.metadata.Canonical
  raw : paged.raw.Canonical
  unclassified : paged.unclassified.Canonical
  metadata_raw : Disjoint paged.metadata.bytes paged.raw.bytes
  metadata_unclassified : Disjoint paged.metadata.bytes paged.unclassified.bytes
  raw_unclassified : Disjoint paged.raw.bytes paged.unclassified.bytes

def typedBytes (paged : PagedEdit) : Set ℕ := paged.metadata.bytes ∪ paged.raw.bytes

/-- Persists the sections of a session and opens them again, in address order. -/
def reopen (paged : PagedEdit) : Checked (Except FreeListError PagedEdit) := do
  let managers ← ManagerSections.paged paged.sections paged.pageSize
  fromPersisted paged.pageSize (ManagerSections.sorted managers)

section
variable {paged : PagedEdit} (h : paged.Persistable)
include h

lemma Persistable.pairwise :
    DisjointExtents (paged.metadata.regions ++ paged.raw.regions ++ paged.unclassified.regions) := by
  refine FreeList.pairwise_disjoint_append
    (FreeList.pairwise_disjoint_append h.metadata.pairwise h.raw.pairwise h.metadata_raw)
    h.unclassified.pairwise ?_
  rw [covered_append, Set.disjoint_union_left]
  exact ⟨h.metadata_unclassified, h.raw_unclassified⟩

/-- The sections that a session persists, and the parts that a reopen makes of them. -/
lemma Persistable.persisted :
    ∃ managers, ManagerSections.paged paged.sections paged.pageSize = .ok managers ∧
      AscendingExtents ((ManagerSections.sorted managers).map Prod.snd) ∧
      partBytes paged.pageSize (ManagerSections.sorted managers) (some .metadata) =
        paged.metadata.bytes \ pagesWithin paged.pageSize.get paged.metadata.bytes ∧
      partBytes paged.pageSize (ManagerSections.sorted managers) (some .raw) =
        paged.raw.bytes ∪ pagesWithin paged.pageSize.get paged.metadata.bytes ∪
          pagesWithin paged.pageSize.get paged.unclassified.bytes ∧
      partBytes paged.pageSize (ManagerSections.sorted managers) none =
        paged.unclassified.bytes \ pagesWithin paged.pageSize.get paged.unclassified.bytes := by
  obtain ⟨generic, hmanagers, hperm, hdisj⟩ :=
    @ManagerSections.pagedLists_spec paged.pageSize _ _ _ h.pairwise
  refine ⟨_, hmanagers, ?_, ?_, ?_, ?_⟩
  · rw [ManagerSections.sorted_filter]
    refine ManagerSections.sorted_ascending ?_
    simpa using hdisj
  · ext x
    simp [mem_partBytes_managers, ManagerSections.covered_smallSections h.metadata]
  · ext x
    simp only [mem_partBytes_managers, ManagerSections.covered_smallSections h.raw, reduceCtorEq,
      false_and, or_false, true_and, Set.mem_sdiff, Set.mem_union,
      ManagerSections.exists_generic_whole hperm h.metadata h.raw h.unclassified]
    tauto
  · ext x
    simp only [mem_partBytes_managers, reduceCtorEq, false_and, false_or, true_and,
      ManagerSections.exists_generic_edge hperm h.unclassified]

lemma Persistable.reopen_exact :
    ∃ metadata raw unclassified, paged.reopen = .ok (.ok { new paged.pageSize with
        metadata := metadata, raw := raw, unclassified := unclassified }) ∧
      metadata.Canonical ∧ raw.Canonical ∧ unclassified.Canonical ∧
      metadata.bytes = paged.metadata.bytes \ pagesWithin paged.pageSize.get paged.typedBytes ∧
      raw.bytes = paged.raw.bytes ∪ pagesWithin paged.pageSize.get paged.typedBytes ∪
        pagesWithin paged.pageSize.get paged.unclassified.bytes ∧
      unclassified.bytes = paged.unclassified.bytes \
        pagesWithin paged.pageSize.get paged.unclassified.bytes := by
  obtain ⟨managers, hmanagers, hasc, hmeta, hraw, hunc⟩ := h.persisted
  obtain ⟨metadata, raw, unclassified, hpaged, hm, hr, hu, hmbytes, hrbytes, hubytes⟩ :=
    fromPersisted_exact paged.pageSize hasc
  -- the typed parts are the typed space with the whole unclassified pages
  have htyped : partBytes paged.pageSize (ManagerSections.sorted managers) (some .metadata) ∪
      partBytes paged.pageSize (ManagerSections.sorted managers) (some .raw) =
      paged.typedBytes ∪ pagesWithin paged.pageSize.get paged.unclassified.bytes := by
    rw [hmeta, hraw, typedBytes]
    ext x
    simp only [Set.mem_union, Set.mem_sdiff]
    tauto
  have hmono : pagesWithin paged.pageSize.get paged.metadata.bytes ⊆
      pagesWithin paged.pageSize.get paged.typedBytes := fun x hx y hy => .inl (hx y hy)
  rw [htyped, pagesWithin_union (wholePages_pagesWithin _ _)] at hmbytes hrbytes
  refine ⟨metadata, raw, unclassified, ?_, hm, hr, hu, ?_, ?_, hubytes.trans hunc⟩
  · simp only [reopen, hmanagers, ok_bind, hpaged]
  · rw [hmbytes, hmeta]
    ext x
    have hclear : x ∈ paged.metadata.bytes →
        x ∉ pagesWithin paged.pageSize.get paged.unclassified.bytes := fun hx hxu =>
      Set.disjoint_left.mp h.metadata_unclassified hx (hxu x rfl)
    simp only [Set.mem_union, Set.mem_sdiff]
    tauto
  · rw [hrbytes, hraw]
    ext x
    simp only [Set.mem_union]
    tauto

end

/-- No whole page is metadata or unclassified, nor typed without being raw. -/
structure Normalised (paged : PagedEdit) : Prop where
  typed : pagesWithin paged.pageSize.get paged.typedBytes ⊆ paged.raw.bytes
  unclassified : pagesWithin paged.pageSize.get paged.unclassified.bytes = ∅

lemma Persistable.reopen_of_normalised {paged : PagedEdit} (h : paged.Persistable)
    (hn : paged.Normalised) : paged.reopen = .ok (.ok { new paged.pageSize with
      metadata := paged.metadata, raw := paged.raw, unclassified := paged.unclassified }) := by
  obtain ⟨metadata, raw, unclassified, hreopen, hm, hr, hu, hmbytes, hrbytes, hubytes⟩ :=
    h.reopen_exact
  have hmeta : metadata = paged.metadata := by
    refine hm.eq_of_bytes_eq h.metadata (hmbytes.trans ?_)
    exact (h.metadata_raw.mono_right hn.typed).sdiff_eq_left
  have hraw : raw = paged.raw := by
    refine hr.eq_of_bytes_eq h.raw (hrbytes.trans ?_)
    rw [hn.unclassified, Set.union_empty, Set.union_eq_left.mpr hn.typed]
  have hunc : unclassified = paged.unclassified := by
    refine hu.eq_of_bytes_eq h.unclassified (hubytes.trans ?_)
    rw [hn.unclassified, Set.sdiff_empty]
  rw [hreopen, hmeta, hraw, hunc]

section
variable {paged paged' : PagedEdit} (h : paged.Persistable)
  (hps : paged'.pageSize = paged.pageSize)
  (hmeta : paged'.metadata.bytes =
    paged.metadata.bytes \ pagesWithin paged.pageSize.get paged.typedBytes)
  (hraw : paged'.raw.bytes = paged.raw.bytes ∪ pagesWithin paged.pageSize.get paged.typedBytes ∪
    pagesWithin paged.pageSize.get paged.unclassified.bytes)
  (hunc : paged'.unclassified.bytes =
    paged.unclassified.bytes \ pagesWithin paged.pageSize.get paged.unclassified.bytes)
include hmeta hraw

lemma typedBytes_reopened : paged'.typedBytes =
    paged.typedBytes ∪ pagesWithin paged.pageSize.get paged.unclassified.bytes := by
  have hsub := pagesWithin_subset paged.pageSize.get paged.typedBytes
  rw [typedBytes, hmeta, hraw]
  ext x
  have hsub := @hsub x
  simp only [typedBytes, Set.mem_union, Set.mem_sdiff] at hsub ⊢
  tauto

include hps

lemma pagesWithin_reopened : pagesWithin paged'.pageSize.get paged'.typedBytes =
    pagesWithin paged.pageSize.get paged.typedBytes ∪
      pagesWithin paged.pageSize.get paged.unclassified.bytes := by
  rw [hps, typedBytes_reopened hmeta hraw, pagesWithin_union (wholePages_pagesWithin _ _)]

include hunc

lemma normalised_reopened : paged'.Normalised := by
  refine ⟨?_, ?_⟩
  · rw [pagesWithin_reopened hps hmeta hraw, hraw, Set.union_assoc]
    exact Set.subset_union_right
  · rw [hps, hunc, Set.eq_empty_iff_forall_notMem]
    intro x hx
    exact (hx x rfl).2 fun y hy => (hx y hy).1

include h in
omit hps in
lemma persistable_reopened (hm : paged'.metadata.Canonical) (hr : paged'.raw.Canonical)
    (hu : paged'.unclassified.Canonical) : paged'.Persistable := by
  have htyped : Disjoint paged.typedBytes paged.unclassified.bytes :=
    Set.disjoint_union_left.mpr ⟨h.metadata_unclassified, h.raw_unclassified⟩
  have hpages := pagesWithin_subset paged.pageSize.get paged.unclassified.bytes
  refine ⟨hm, hr, hu, ?_, ?_, ?_⟩
  · rw [hmeta, hraw, Set.disjoint_union_right, Set.disjoint_union_right]
    exact ⟨⟨h.metadata_raw.mono_left Set.sdiff_subset, Set.disjoint_sdiff_left⟩,
      h.metadata_unclassified.mono Set.sdiff_subset hpages⟩
  · rw [hmeta, hunc]
    exact h.metadata_unclassified.mono Set.sdiff_subset Set.sdiff_subset
  · rw [hraw, hunc, Set.disjoint_union_left, Set.disjoint_union_left]
    exact ⟨⟨h.raw_unclassified.mono_right Set.sdiff_subset,
      htyped.mono (pagesWithin_subset _ _) Set.sdiff_subset⟩, Set.disjoint_sdiff_right⟩

end

/-- Free space survives persisting and reopening: no byte is lost, whole typed pages and whole
unclassified pages become raw, every other byte keeps its class, and a normalised session comes back
as it was. The reopened session is normalised. -/
theorem reopen_preserves (paged : PagedEdit) (h : paged.Persistable) :
    ∃ paged', paged.reopen = .ok (.ok paged') ∧
      paged'.typedBytes ∪ paged'.unclassified.bytes =
        paged.typedBytes ∪ paged.unclassified.bytes ∧
      (∀ x, x ∉ pagesWithin paged.pageSize.get paged'.typedBytes →
        (x ∈ paged'.metadata.bytes ↔ x ∈ paged.metadata.bytes) ∧
        (x ∈ paged'.raw.bytes ↔ x ∈ paged.raw.bytes) ∧
        (x ∈ paged'.unclassified.bytes ↔ x ∈ paged.unclassified.bytes)) ∧
      pagesWithin paged.pageSize.get paged.typedBytes ⊆ paged'.raw.bytes ∧
      (∀ e ∈ paged.unclassified.regions,
        pagesWithin paged.pageSize.get e.bytes ⊆ paged'.raw.bytes) ∧
      (paged.Normalised → paged'.metadata = paged.metadata ∧ paged'.raw = paged.raw ∧
        paged'.unclassified = paged.unclassified) ∧
      paged'.reopen = .ok (.ok paged') := by
  obtain ⟨metadata, raw, unclassified, hreopen, hm, hr, hu, hmeta, hraw, hunc⟩ := h.reopen_exact
  obtain ⟨paged', hpaged'⟩ : ∃ paged' : PagedEdit, paged' = { new paged.pageSize with
    metadata := metadata, raw := raw, unclassified := unclassified } := ⟨_, rfl⟩
  have hps : paged'.pageSize = paged.pageSize := by rw [hpaged']; rfl
  obtain rfl : paged'.metadata = metadata := by rw [hpaged']
  obtain rfl : paged'.raw = raw := by rw [hpaged']
  obtain rfl : paged'.unclassified = unclassified := by rw [hpaged']
  have hpages := pagesWithin_reopened hps hmeta hraw
  rw [hps] at hpages
  refine ⟨paged', hpaged' ▸ hreopen, ?_, ?_, ?_, ?_, ?_, ?_⟩
  · rw [typedBytes_reopened hmeta hraw, hunc, Set.union_assoc,
      Set.union_sdiff_cancel (pagesWithin_subset _ _)]
  · intro x hx
    rw [hpages, Set.mem_union, not_or] at hx
    rw [hmeta, hraw, hunc]
    simp only [Set.mem_union, Set.mem_sdiff]
    tauto
  · rw [hraw, Set.union_assoc]
    exact Set.subset_union_left.trans Set.subset_union_right
  · intro e he x hx
    rw [hraw]
    exact .inr fun y hy => bytes_subset_covered he (hx y hy)
  · intro hn
    have heq := Except.ok.inj (Except.ok.inj (hreopen.symm.trans (h.reopen_of_normalised hn)))
    rw [← hpaged'] at heq
    exact ⟨by rw [heq], by rw [heq], by rw [heq]⟩
  · have hagain := (persistable_reopened h hmeta hraw hunc hm hr hu).reopen_of_normalised
      (normalised_reopened hps hmeta hraw hunc)
    rw [hps, ← hpaged'] at hagain
    exact hagain

theorem reopen_preserves_unclassified_pages :
    ∃ paged', ({ new ⟨512, by decide, by decide⟩ with
        metadata := ⟨[⟨0, 100, by decide, by decide⟩], 100⟩,
        raw := ⟨[⟨100, 412, by decide, by decide⟩], 412⟩,
        unclassified := ⟨[⟨1000, 1100, by decide, by decide⟩], 1100⟩ } : PagedEdit).reopen =
        .ok (.ok paged') ∧ paged'.reopen = .ok (.ok paged') := by
  refine (reopen_preserves _ ?_).imp fun paged' h => ⟨h.1, h.2.2.2.2.2.2⟩
  exact ⟨⟨separated_singleton, rfl⟩, ⟨separated_singleton, rfl⟩, ⟨separated_singleton, rfl⟩,
    by simp [FreeList.bytes, Extent.disjoint_iff, Extent.stop],
    by simp [FreeList.bytes, Extent.disjoint_iff, Extent.stop],
    by simp [FreeList.bytes, Extent.disjoint_iff, Extent.stop]⟩

end PagedEdit

end Hdf5Pure.Space
