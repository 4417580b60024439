import Hdf5Pure.Space.PagedEditTheorems
import Hdf5Pure.Space.Persisted

/-!
# Recovered space is the admitted sections

On sections in ascending order, `SessionSpace.fromPersisted` returns without a failed assertion, and
what the session may hand out are exactly the bytes of the parts that its strategy can use.
-/

namespace Hdf5Pure.Space

open List hiding Disjoint

open Checked IntervalLists

def reusablePart (strategy : FileSpaceStrategy) (pageSize : FileSpacePageSize)
    (s : Option ManagerKind × Extent) : Option Extent :=
  match strategy, s.1 with
  | .fsmAggr, _ => some s.2
  | .page, some .pagedSmallMetadata => some s.2
  | .page, some .pagedSmallRaw => some s.2
  | .page, some .pagedLargeGeneric => s.2.alignedInterior pageSize.get
  | _, _ => none

def reusableBytes (strategy : FileSpaceStrategy) (pageSize : FileSpacePageSize)
    (sections : List (Option ManagerKind × Extent)) : Set ℕ :=
  {x | ∃ s ∈ sections, ∃ part ∈ reusablePart strategy pageSize s, x ∈ part.bytes}

variable {s : Option ManagerKind × Extent} {part : Extent}

lemma reusablePart_within {strategy : FileSpaceStrategy} {pageSize : FileSpacePageSize}
    (h : part ∈ reusablePart strategy pageSize s) :
    s.2.start ≤ part.start ∧ part.stop ≤ s.2.stop := by
  unfold reusablePart at h
  split at h
  iterate 3
    · cases h
      exact ⟨le_rfl, le_rfl⟩
  · obtain ⟨-, -, hstart, -, hstop, -⟩ := Extent.alignedInterior_spec h
    exact ⟨hstart, hstop⟩
  · cases h

namespace PagedEdit

/-- The parts of a section are in order and inside it. -/
lemma persistedParts_within (pageSize : FileSpacePageSize) (kind : Option ManagerKind)
    (e : Extent) :
    (persistedParts pageSize kind e).Pairwise (fun p q => p.1.stop ≤ q.1.start) ∧
      ∀ p ∈ persistedParts pageSize kind e, e.start ≤ p.1.start ∧ p.1.stop ≤ e.stop := by
  unfold persistedParts
  split
  · simp
  · simp
  · split
    · simp
    · rename_i pages hpages
      obtain ⟨-, -, hstart, -, hstop, -⟩ := Extent.alignedInterior_spec hpages
      have hpos := pages.start_lt_stop
      have hhead : ∀ p ∈ ((Extent.between e.start pages.start).map
          fun x => (x, (none : Option PageType))).toList,
          e.start ≤ p.1.start ∧ p.1.stop ≤ pages.start := by
        intro p hp
        obtain ⟨x, hx, rfl⟩ := Option.map_eq_some_iff.mp (Option.mem_toList.mp hp)
        obtain ⟨h1, h2⟩ := Extent.between_eq_some.mp hx
        exact ⟨h1.ge, h2.le⟩
      have htail : ∀ p ∈ ((Extent.between pages.stop e.stop).map
          fun x => (x, (none : Option PageType))).toList,
          pages.stop ≤ p.1.start ∧ p.1.stop ≤ e.stop := by
        intro p hp
        obtain ⟨x, hx, rfl⟩ := Option.map_eq_some_iff.mp (Option.mem_toList.mp hp)
        obtain ⟨h1, h2⟩ := Extent.between_eq_some.mp hx
        exact ⟨h1.ge, h2.le⟩
      have hpair : ∀ {o : Option (Extent × Option PageType)},
          o.toList.Pairwise fun p q => p.1.stop ≤ q.1.start := by
        intro o
        cases o <;> simp
      rw [append_assoc, pairwise_append, pairwise_append]
      refine ⟨⟨hpair, ⟨pairwise_singleton _ _, hpair, ?_⟩, ?_⟩, ?_⟩
      · intro p hp q hq
        rw [mem_singleton.mp hp]
        exact (htail q hq).1
      · intro p hp q hq
        have h1 := hhead p hp
        rcases mem_append.mp hq with hq | hq
        · rw [mem_singleton.mp hq]
          exact h1.2
        · have h2 := htail q hq
          omega
      · intro p hp
        rcases mem_append.mp hp with hp | hp
        · have h1 := hhead p hp
          omega
        rcases mem_append.mp hp with hp | hp
        · rw [mem_singleton.mp hp]
          exact ⟨hstart, hstop⟩
        · have h1 := htail p hp
          omega
  · simp
  · simp

variable {pageSize : FileSpacePageSize} {sections : List (Option ManagerKind × Extent)}
  {parts : List (Extent × Option PageType)}

/-- The typed parts of a section are its reusable part. -/
lemma mem_persistedParts :
    (∃ ty, (part, some ty) ∈ persistedParts pageSize s.1 s.2) ↔
      part ∈ reusablePart .page pageSize s := by
  obtain ⟨kind, e⟩ := s
  unfold persistedParts
  rcases kind with _ | _ | _ | _ | _
  · simp [reusablePart]
  · simp [reusablePart]
  · simp only [reusablePart]
    cases hpages : e.alignedInterior pageSize.get with
    | none => simp
    | some pages => simp [eq_comm]
  · simp [reusablePart, eq_comm]
  · simp [reusablePart, eq_comm]

lemma parts_ascending (h : AscendingExtents (sections.map Prod.snd)) :
    (sections.flatMap fun s => persistedParts pageSize s.1 s.2).Pairwise
      fun p q => p.1.stop ≤ q.1.start := by
  rw [pairwise_flatMap]
  refine ⟨fun s _ => (persistedParts_within pageSize s.1 s.2).1, ?_⟩
  refine (pairwise_map.mp h).imp fun {s t} hst p hp q hq => ?_
  have h1 := (persistedParts_within pageSize s.1 s.2).2 p hp
  have h2 := (persistedParts_within pageSize t.1 t.2).2 q hq
  omega

lemma mem_partsOf {ty : Option PageType} {e : Extent} : e ∈ partsOf ty parts ↔ (e, ty) ∈ parts := by
  unfold partsOf
  rw [mem_filterMap]
  constructor
  · rintro ⟨⟨e', ty'⟩, hmem, heq⟩
    split at heq
    · rename_i hty
      cases heq
      exact hty ▸ hmem
    · cases heq
  · intro hmem
    exact ⟨(e, ty), hmem, if_pos rfl⟩

lemma partsOf_ascending (h : parts.Pairwise fun p q => p.1.stop ≤ q.1.start)
    (ty : Option PageType) : AscendingExtents (partsOf ty parts) := by
  refine pairwise_filterMap.mpr (h.imp fun {p q} hpq a ha b hb => ?_)
  split at ha <;> cases ha
  split at hb <;> cases hb
  exact hpq

lemma partsOf_disjoint (h : parts.Pairwise fun p q => p.1.stop ≤ q.1.start)
    {ty ty' : Option PageType} (hne : ty ≠ ty') :
    Disjoint (covered (partsOf ty parts)) (covered (partsOf ty' parts)) := by
  have hd : parts.Pairwise fun p q => Disjoint p.1.bytes q.1.bytes :=
    h.imp fun hpq => Extent.disjoint_iff.mpr (.inl hpq)
  rw [Set.disjoint_left]
  intro x hx hx'
  obtain ⟨e, he, hxe⟩ := mem_covered.mp hx
  obtain ⟨e', he', hxe'⟩ := mem_covered.mp hx'
  have hpq := hd.forall (mem_partsOf.mp he) (mem_partsOf.mp he')
    fun heq => hne (congrArg Prod.snd heq)
  exact Set.disjoint_left.mp hpq hxe hxe'

lemma sectionsError_of_ascending {previous : Option Extent} {extents : List Extent}
    (h : AscendingExtents (previous.toList ++ extents)) : sectionsError previous extents = none := by
  induction extents generalizing previous with
  | nil => rfl
  | cons e rest ih =>
    have herr : FreeList.orderError previous e = none := by
      cases previous with
      | none => rfl
      | some p =>
        have hle : p.stop ≤ e.start := (pairwise_cons.mp h).1 e (by simp)
        have hpos := p.start_lt_stop
        show (if _ then _ else if _ then _ else _) = _
        rw [if_neg (by omega), if_neg (by omega)]
    have htail : AscendingExtents ((some e).toList ++ rest) := (pairwise_append.mp h).2.1
    rw [sectionsError, herr, Option.none_or]
    exact ih htail

/-- Seeding a session with disjoint lists moves the whole pages of its typed space to raw. -/
lemma finishSeed_exact {paged : PagedEdit} (hm : paged.metadata.Canonical)
    (hr : paged.raw.Canonical) (hd : paged.dead = .new)
    (hmr : Disjoint paged.metadata.bytes paged.raw.bytes) :
    ∃ metadata raw, paged.finishSeed = .ok { paged with metadata := metadata, raw := raw } ∧
      metadata.Canonical ∧ raw.Canonical ∧
      metadata.bytes = paged.metadata.bytes \
        pagesWithin paged.pageSize.get (paged.metadata.bytes ∪ paged.raw.bytes) ∧
      raw.bytes = paged.raw.bytes ∪
        pagesWithin paged.pageSize.get (paged.metadata.bytes ∪ paged.raw.bytes) := by
  obtain ⟨post, hpost⟩ : ∃ post : PagedPostFree, post =
    ⟨paged.pageSize, paged.metadata, paged.raw, paged.dead, paged.unclassified⟩ := ⟨_, rfl⟩
  have hmeta : post.list (.page .metadata) = paged.metadata := by rw [hpost]; rfl
  have hraw : post.list (.page .raw) = paged.raw := by rw [hpost]; rfl
  have hdead : post.list .dead = .new := by rw [hpost, ← hd]; rfl
  have hcan : post.Canonical := by
    rintro (_ | _ | _)
    · exact hdead ▸ FreeList.canonical_new
    · exact hmeta ▸ hm
    · exact hraw ▸ hr
  have hdisj : post.Apart := by
    have hnew : ∀ t, Disjoint (post.list t).bytes (post.list .dead).bytes := fun t => by
      rw [hdead, FreeList.bytes_new]
      exact Set.disjoint_empty _
    rintro (_ | _ | _) (_ | _ | _) hne
    all_goals first
      | exact absurd rfl hne
      | exact hnew _
      | exact (hnew _).symm
      | exact hmeta ▸ hraw ▸ hmr
      | exact hmeta ▸ hraw ▸ hmr.symm
  have hunion : {x | ∃ c, x ∈ (post.list c).bytes} = paged.metadata.bytes ∪ paged.raw.bytes := by
    ext x
    constructor
    · rintro ⟨_ | _ | _, hx⟩
      · rw [hdead, FreeList.bytes_new] at hx
        exact hx.elim
      · exact .inl (hmeta ▸ hx)
      · exact .inr (hraw ▸ hx)
    · rintro (hx | hx)
      · exact ⟨.page .metadata, hmeta ▸ hx⟩
      · exact ⟨.page .raw, hraw ▸ hx⟩
  have hps : post.pageSize = paged.pageSize := by rw [hpost]
  obtain ⟨post', hpromote, -, -, hcan', hbytes⟩ := promoteWholeFreePages_exact hcan hdisj
  simp only [promotedBytes, hunion, hps] at hbytes
  -- no page comes from the dead list and none goes to it
  have hdead' : post'.dead = .new := by
    refine (hcan' .dead).eq_of_bytes_eq FreeList.canonical_new ?_
    rw [hbytes, hdead, FreeList.bytes_new]
    simp
  refine ⟨post'.metadata, post'.raw, ?_, hcan' (.page .metadata), hcan' (.page .raw), ?_, ?_⟩
  · simp only [finishSeed, ← hpost, hpromote, ok_bind, hdead', ← hd]
  · refine (hbytes (.page .metadata)).trans ?_
    rw [hmeta]
    simp
  · refine (hbytes (.page .raw)).trans ?_
    rw [hraw]
    simp

def partBytes (pageSize : FileSpacePageSize) (sections : List (Option ManagerKind × Extent))
    (ty : Option PageType) : Set ℕ :=
  {x | ∃ s ∈ sections, ∃ part, (part, ty) ∈ persistedParts pageSize s.1 s.2 ∧ x ∈ part.bytes}

lemma covered_partsOf (pageSize : FileSpacePageSize)
    (sections : List (Option ManagerKind × Extent)) (ty : Option PageType) :
    covered (partsOf ty (sections.flatMap fun s => persistedParts pageSize s.1 s.2)) =
      partBytes pageSize sections ty := by
  ext x
  simp only [mem_covered, mem_partsOf, mem_flatMap, partBytes, Set.mem_ofPred_eq]
  exact ⟨fun ⟨e, ⟨s, hs, he⟩, hx⟩ => ⟨s, hs, e, he, hx⟩,
    fun ⟨s, hs, e, he, hx⟩ => ⟨e, ⟨s, hs, he⟩, hx⟩⟩

lemma partBytes_disjoint (h : AscendingExtents (sections.map Prod.snd)) {ty ty' : Option PageType}
    (hne : ty ≠ ty') :
    Disjoint (partBytes pageSize sections ty) (partBytes pageSize sections ty') := by
  rw [← covered_partsOf, ← covered_partsOf]
  exact partsOf_disjoint (parts_ascending h) hne

/-- The session of ascending sections: their parts, with the whole typed pages moved to raw. -/
lemma fromPersisted_exact (pageSize : FileSpacePageSize)
    (h : AscendingExtents (sections.map Prod.snd)) :
    ∃ metadata raw unclassified, fromPersisted pageSize sections =
        .ok (.ok { new pageSize with metadata := metadata, raw := raw, unclassified := unclassified }) ∧
      metadata.Canonical ∧ raw.Canonical ∧ unclassified.Canonical ∧
      metadata.bytes = partBytes pageSize sections (some .metadata) \
        pagesWithin pageSize.get (partBytes pageSize sections (some .metadata) ∪
          partBytes pageSize sections (some .raw)) ∧
      raw.bytes = partBytes pageSize sections (some .raw) ∪
        pagesWithin pageSize.get (partBytes pageSize sections (some .metadata) ∪
          partBytes pageSize sections (some .raw)) ∧
      unclassified.bytes = partBytes pageSize sections none := by
  obtain ⟨parts, hparts⟩ : ∃ parts, parts =
    sections.flatMap fun s => persistedParts pageSize s.1 s.2 := ⟨_, rfl⟩
  have hasc : parts.Pairwise fun p q => p.1.stop ≤ q.1.start := hparts ▸ parts_ascending h
  have herr : sectionsError none (sections.map Prod.snd) = none := sectionsError_of_ascending h
  have hbytes : ∀ ty, covered (partsOf ty parts) = partBytes pageSize sections ty :=
    fun ty => hparts ▸ covered_partsOf pageSize sections ty
  obtain ⟨metadata, hm, hmcan, hmbytes⟩ :=
    FreeList.fromSorted_of_ascending (partsOf_ascending hasc (some .metadata))
  obtain ⟨raw, hr, hrcan, hrbytes⟩ :=
    FreeList.fromSorted_of_ascending (partsOf_ascending hasc (some .raw))
  obtain ⟨unclassified, hu, hucan, hubytes⟩ :=
    FreeList.fromSorted_of_ascending (partsOf_ascending hasc none)
  have hdisj : Disjoint metadata.bytes raw.bytes := by
    rw [hmbytes, hrbytes, hbytes, hbytes]
    exact partBytes_disjoint h (by simp)
  obtain ⟨metadata', raw', hseed, hmcan', hrcan', hmbytes', hrbytes'⟩ := @finishSeed_exact
    { new pageSize with metadata := metadata, raw := raw, unclassified := unclassified }
    hmcan hrcan rfl hdisj
  simp only [hmbytes, hrbytes, hbytes] at hmbytes' hrbytes'
  refine ⟨metadata', raw', unclassified, ?_, hmcan', hrcan', hucan, hmbytes', hrbytes',
    hubytes.trans (hbytes none)⟩
  simp only [fromPersisted, herr, ← hparts, hm, hr, hu, hseed, ok_bind]

/-- A PAGE session from ascending sections hands out exactly their reusable parts. -/
lemma fromPersisted_spec (pageSize : FileSpacePageSize)
    (h : AscendingExtents (sections.map Prod.snd)) :
    ∃ paged, fromPersisted pageSize sections = .ok (.ok paged) ∧ paged.metadata.Canonical ∧
      paged.raw.Canonical ∧ Disjoint paged.metadata.bytes paged.raw.bytes ∧
      paged.metadata.bytes ∪ paged.raw.bytes = reusableBytes .page pageSize sections := by
  obtain ⟨metadata, raw, unclassified, hpaged, hm, hr, -, hmbytes, hrbytes, -⟩ :=
    fromPersisted_exact pageSize h
  have hreusable : reusableBytes .page pageSize sections =
      partBytes pageSize sections (some .metadata) ∪ partBytes pageSize sections (some .raw) := by
    ext x
    constructor
    · rintro ⟨s, hs, e, he, hx⟩
      obtain ⟨_ | _, he⟩ := mem_persistedParts.mpr he
      · exact .inl ⟨s, hs, e, he, hx⟩
      · exact .inr ⟨s, hs, e, he, hx⟩
    · rintro (⟨s, hs, e, he, hx⟩ | ⟨s, hs, e, he, hx⟩) <;>
        exact ⟨s, hs, e, mem_persistedParts.mp ⟨_, he⟩, hx⟩
  have hsub := pagesWithin_subset pageSize.get (reusableBytes .page pageSize sections)
  rw [hreusable] at hsub
  refine ⟨_, hpaged, hm, hr, ?_, ?_⟩
  · show Disjoint metadata.bytes raw.bytes
    rw [hmbytes, hrbytes, Set.disjoint_union_right]
    exact ⟨(partBytes_disjoint h (by simp)).mono_left Set.sdiff_subset, Set.disjoint_sdiff_left⟩
  · show metadata.bytes ∪ raw.bytes = _
    rw [hmbytes, hrbytes, hreusable, Set.union_comm (partBytes _ _ (some .raw)), ← Set.union_assoc,
      Set.sdiff_union_self, Set.union_right_comm, Set.union_eq_left.mpr hsub]

end PagedEdit

/-- Space from ascending sections hands out exactly their reusable parts, once each. -/
lemma SessionSpace.fromPersisted_spec (strategy : FileSpaceStrategy) (threshold : ℕ)
    (pageSize : FileSpacePageSize) {sections : List (Option ManagerKind × Extent)}
    (h : AscendingExtents (sections.map Prod.snd)) :
    ∃ space, fromPersisted (some strategy) threshold pageSize sections = .ok (.ok space) ∧
      DisjointExtents space.reusableSections ∧
      covered space.reusableSections = reusableBytes strategy pageSize sections := by
  cases strategy with
  | fsmAggr =>
    obtain ⟨free, hfree, hcan, hbytes⟩ := FreeList.fromSorted_of_ascending h
    refine ⟨flat ⟨free, threshold⟩, ?_, ?_, ?_⟩
    · simp only [fromPersisted, hfree, ok_bind, Except.map]
    · exact FreeList.pairwise_disjoint_of_ascending hcan.separated.ascending
    · show free.bytes = _
      rw [hbytes]
      ext x
      simp only [mem_covered, mem_map, reusableBytes, reusablePart, Option.mem_some_iff,
        Set.mem_ofPred_eq]
      constructor
      · rintro ⟨_, ⟨s, hs, rfl⟩, hx⟩
        exact ⟨s, hs, s.2, rfl, hx⟩
      · rintro ⟨s, hs, _, rfl, hx⟩
        exact ⟨s.2, ⟨s, hs, rfl⟩, hx⟩
  | page =>
    obtain ⟨edit, hedit, hm, hr, hd, hbytes⟩ := PagedEdit.fromPersisted_spec pageSize h
    refine ⟨paged ⟨edit, threshold⟩, ?_, ?_, ?_⟩
    · simp only [fromPersisted, hedit, ok_bind, Except.map]
    · exact FreeList.pairwise_disjoint_append
        (FreeList.pairwise_disjoint_of_ascending hm.separated.ascending)
        (FreeList.pairwise_disjoint_of_ascending hr.separated.ascending) hd
    · exact (covered_append _ _).trans hbytes
  | aggr =>
    refine ⟨disabled, rfl, List.Pairwise.nil, ?_⟩
    simp [reusableSections, reusableBytes, reusablePart]
  | none =>
    refine ⟨disabled, rfl, List.Pairwise.nil, ?_⟩
    simp [reusableSections, reusableBytes, reusablePart]

end Hdf5Pure.Space
