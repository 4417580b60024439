import Hdf5Pure.Space.ExtentMap
import Hdf5Pure.Space.FreeListAllocTheorems
import Hdf5Pure.Space.Indexed

/-!
# Indexed free lists refine free lists

An indexed free list stands for the free list of its regions. Every operation returns what the list
operation returns: both choose the best fit, which is unique, and a canonical list is determined by
its bytes.
-/

namespace Hdf5Pure.Space

open Checked IntervalLists List

/-! ## Capacity indexes -/

def CapacityIndex.Indexes (index : CapacityIndex) (capacity : Extent → Option ℕ)
    (regions : List Extent) : Prop :=
  ∀ key, key ∈ index.keys ↔
    ∃ r ∈ regions, ∃ c, capacity r = some c ∧ key = toLex (c, r.start)

variable {size : ℕ} {blocks : BlockIndex}

namespace CapacityIndex

variable {index : CapacityIndex} {capacity : Extent → Option ℕ} {regions before after : List Extent}

lemma indexes_empty : Indexes .empty capacity [] := by simp [Indexes]

lemma Indexes.add (h : Indexes index capacity (before ++ after)) (e : Extent) :
    Indexes (index.add (capacity e) e.start) capacity (before ++ e :: after) := by
  intro key
  have hkey : key ∈ (index.add (capacity e) e.start).keys ↔
      (∃ c, capacity e = some c ∧ key = toLex (c, e.start)) ∨ key ∈ index.keys := by
    cases hc : capacity e with
    | none => simp [CapacityIndex.add]
    | some c => simp [CapacityIndex.add, OrdMap.mem_keys_insert]
  rw [hkey, h key]
  simp only [mem_append, mem_cons, or_and_right, exists_or, exists_eq_left]
  exact or_left_comm

lemma Indexes.drop {e : Extent} (h : Indexes index capacity (before ++ e :: after))
    (hsep : SeparatedExtents (before ++ e :: after)) :
    Indexes (index.drop (capacity e) e.start) capacity (before ++ after) := by
  intro key
  have hkey : key ∈ (index.drop (capacity e) e.start).keys ↔
      (∀ c, capacity e = some c → key ≠ toLex (c, e.start)) ∧ key ∈ index.keys := by
    cases hc : capacity e with
    | none => simp [CapacityIndex.drop]
    | some c => simp [CapacityIndex.drop, OrdMap.mem_keys_remove]
  -- the other regions start elsewhere
  have hstart : ∀ r, r ∈ before ∨ r ∈ after → r.start ≠ e.start := by
    obtain ⟨-, hright, hcross⟩ := separated_append.mp hsep
    rintro r (hr | hr)
    · have := hcross r hr e (by simp)
      have := r.start_lt_stop
      omega
    · have := (separated_cons.mp hright).1 r hr
      have := e.start_lt_stop
      omega
  rw [hkey, h key]
  simp only [mem_append, mem_cons]
  constructor
  · rintro ⟨hne, r, hr | rfl | hr, c, hc, rfl⟩
    · exact ⟨r, .inl hr, c, hc, rfl⟩
    · exact absurd rfl (hne c hc)
    · exact ⟨r, .inr hr, c, hc, rfl⟩
  · rintro ⟨r, hr, c, hc, rfl⟩
    refine ⟨fun c' _ heq => hstart r hr ?_, r, by tauto, c, hc, rfl⟩
    exact (Prod.mk.inj (toLex.injective heq)).2

/-- A query returns the start of the region with the least sufficient capacity. -/
lemma Indexes.find_some (h : Indexes index capacity regions) {start : ℕ}
    (hfind : index.find size = some start) :
    ∃ r ∈ regions, ∃ c, r.start = start ∧ capacity r = some c ∧ size ≤ c ∧
      ∀ r' ∈ regions, ∀ c', capacity r' = some c' → size ≤ c' →
        c < c' ∨ (c = c' ∧ r.start ≤ r'.start) := by
  obtain ⟨entry, hentry, rfl⟩ := Option.map_eq_some_iff.mp hfind
  obtain ⟨hmem, hle, hleast⟩ := OrdMap.firstFrom_eq_some hentry
  obtain ⟨r, hr, c, hc, hkey⟩ := (h entry.1).mp (mem_map_of_mem hmem)
  rw [hkey] at hle hleast
  rw [Prod.Lex.toLex_le_toLex] at hle
  refine ⟨r, hr, c, by rw [hkey]; rfl, hc, by omega, fun r' hr' c' hc' hsize => ?_⟩
  have hbound := hleast _ ((h _).mpr ⟨r', hr', c', hc', rfl⟩) (by
    rw [Prod.Lex.toLex_le_toLex]
    omega)
  rwa [Prod.Lex.toLex_le_toLex] at hbound

lemma Indexes.find_none (h : Indexes index capacity regions) (hfind : index.find size = none) :
    ∀ r ∈ regions, ∀ c, capacity r = some c → c < size := by
  intro r hr c hc
  have hnone := OrdMap.firstFrom_eq_none.mp (Option.map_eq_none_iff.mp hfind)
  have hlt := hnone _ ((h _).mpr ⟨r, hr, c, hc, rfl⟩)
  rw [Prod.Lex.toLex_lt_toLex] at hlt
  omega

end CapacityIndex

/-! ## Coherence -/

/-- The block index agrees with the regions. -/
structure BlockIndex.Indexes (blocks : BlockIndex) (pageSize : Option FileSpacePageSize)
    (regions : List Extent) : Prop where
  page : pageSize = some blocks.pageSize
  small : blocks.small.Indexes (fun r => some (r.blockCapacity blocks.pageSize 1)) regions
  large : blocks.large.Indexes
    (fun r => some (r.blockCapacity blocks.pageSize blocks.pageSize.get)) regions

/-- Every index agrees with the regions, which are separated. -/
structure IndexedFreeList.Coherent (pageSize : Option FileSpacePageSize)
    (index : IndexedFreeList) : Prop where
  keyed : index.regions.Keyed Extent.start
  separated : SeparatedExtents index.regions.values
  sizes : index.sizes.Indexes (fun r => some r.len) index.regions.values
  interiors : index.interiors.Indexes (IndexedFreeList.interiorLen index.alignment)
    index.regions.values
  blocks : ∀ b ∈ index.blocks, b.Indexes pageSize index.regions.values
  alignment : index.alignment = pageSize.map FileSpacePageSize.unit
  buffer : index.buffer = []
  restored : index.restored = false

namespace BlockIndex

variable {pageSize : Option FileSpacePageSize}

lemma Indexes.insert {before after : List Extent} (h : blocks.Indexes pageSize (before ++ after))
    (e : Extent) :
    (blocks.insert e).Indexes pageSize (before ++ e :: after) :=
  ⟨h.page, h.small.add e, h.large.add e⟩

lemma Indexes.remove {before after : List Extent} {e : Extent}
    (h : blocks.Indexes pageSize (before ++ e :: after))
    (hsep : SeparatedExtents (before ++ e :: after)) :
    (blocks.remove e).Indexes pageSize (before ++ after) :=
  ⟨h.page, h.small.drop hsep, h.large.drop hsep⟩

/-- The index that the first block request builds. -/
lemma indexes_foldl {pageSize : FileSpacePageSize} (regions : List Extent) :
    (regions.foldl BlockIndex.insert (BlockIndex.new pageSize)).Indexes (some pageSize) regions := by
  induction regions using reverseRecOn with
  | nil => exact ⟨rfl, CapacityIndex.indexes_empty, CapacityIndex.indexes_empty⟩
  | append_singleton regions e ih =>
    rw [foldl_append]
    exact Indexes.insert (by rwa [append_nil]) e

end BlockIndex

namespace IndexedFreeList

variable {pageSize : Option FileSpacePageSize} {index : IndexedFreeList}
  {before after : List Extent} {e : Extent}

def toFreeList (index : IndexedFreeList) : FreeList := ⟨index.regions.values, index.totalBytes⟩

lemma Coherent.insert (h : index.Coherent pageSize) (hv : index.regions.values = before ++ after)
    (hsep : SeparatedExtents (before ++ e :: after)) :
    (index.insert e).Coherent pageSize ∧ (index.insert e).regions.values = before ++ e :: after := by
  obtain ⟨-, hright, hcross⟩ := separated_append.mp hsep
  have hvalues : (index.insert e).regions.values = before ++ e :: after := by
    apply h.keyed.values_insert hv
    · intro a ha
      exact a.start_lt_stop.trans (hcross a ha e (by simp))
    · intro a ha
      exact e.start_lt_stop.trans ((separated_cons.mp hright).1 a ha)
  refine ⟨⟨h.keyed.insert e, ?_, ?_, ?_, ?_, h.alignment, h.buffer, h.restored⟩, hvalues⟩
  all_goals rw [hvalues]
  · exact hsep
  · exact (hv ▸ h.sizes).add e
  · exact (hv ▸ h.interiors).add e
  · intro b hb
    obtain ⟨b', hb', rfl⟩ := Option.map_eq_some_iff.mp (Option.mem_def.mp hb)
    exact (hv ▸ h.blocks b' hb').insert e

lemma Coherent.remove (h : index.Coherent pageSize)
    (hv : index.regions.values = before ++ e :: after) :
    ∃ index', index.remove e.start = .ok (e, index') ∧ index'.Coherent pageSize ∧
      index'.regions.values = before ++ after ∧ index'.totalBytes = index.totalBytes := by
  have hsep := h.separated
  rw [hv] at hsep
  have hget : index.regions.get? e.start = some e := h.keyed.get?_of_mem (by rw [hv]; simp)
  have hvalues : (index.regions.remove e.start).values = before ++ after := h.keyed.values_remove hv
  refine ⟨index.forget e e.start, by rw [IndexedFreeList.remove, hget, expect_some, ok_bind],
    ⟨h.keyed.remove _, ?_, ?_, ?_, ?_, h.alignment, h.buffer, h.restored⟩, hvalues, rfl⟩
  all_goals
    dsimp only [IndexedFreeList.forget]
    rw [hvalues]
  · exact hsep.sublist ((List.Sublist.refl _).append (sublist_cons_self _ _))
  · exact (hv ▸ h.sizes).drop hsep
  · exact (hv ▸ h.interiors).drop hsep
  · intro b hb
    obtain ⟨b', hb', rfl⟩ := Option.map_eq_some_iff.mp (Option.mem_def.mp hb)
    exact (hv ▸ h.blocks b' hb').remove hsep

variable {l : FreeList} {page : FileSpacePageSize}

/-- Borrowing a canonical list builds coherent indexes of its regions. -/
lemma new_spec (hl : l.Canonical) (pageSize : Option FileSpacePageSize) :
    (new l (pageSize.map FileSpacePageSize.unit)).Coherent pageSize ∧ (new l (pageSize.map FileSpacePageSize.unit)).toFreeList = l := by
  -- the fold indexes a growing part of the owner's regions
  have hfold : ∀ (rest done : List Extent) (index : IndexedFreeList),
      SeparatedExtents (done ++ rest) → index.Coherent pageSize → index.regions.values = done →
      (rest.foldl adopt index).Coherent pageSize ∧
        (rest.foldl adopt index).regions.values = done ++ rest ∧
        (rest.foldl adopt index).totalBytes = index.totalBytes := by
    intro rest
    induction rest with
    | nil =>
      intro done index _ h hv
      exact ⟨h, by simpa using hv, rfl⟩
    | cons e rest ih =>
      intro done index hsep h hv
      have hsep' : SeparatedExtents (done ++ e :: []) :=
        hsep.sublist ((List.Sublist.refl _).append (by simp))
      obtain ⟨hins, hvalues⟩ := h.insert (by rw [hv, append_nil]) hsep'
      have hadopt : (index.adopt e).Coherent pageSize := { hins with }
      obtain ⟨hcoh, hvs, htotal⟩ := ih (done ++ [e]) (index.adopt e)
        (by simpa using hsep) hadopt hvalues
      exact ⟨hcoh, by simpa using hvs, htotal⟩
  have hempty : (drained l.totalBytes (pageSize.map FileSpacePageSize.unit)).Coherent pageSize :=
    ⟨OrdMap.keyed_empty, separated_nil, CapacityIndex.indexes_empty, CapacityIndex.indexes_empty,
      by simp [drained], rfl, rfl, rfl⟩
  obtain ⟨hcoh, hvalues, htotal⟩ := hfold l.regions [] _ (by simpa using hl.separated) hempty rfl
  exact ⟨hcoh, FreeList.ext hvalues htotal⟩

lemma Coherent.restore_owner (h : index.Coherent pageSize) :
    index.restore.owner = index.toFreeList := by
  simp [restore, h.restored, h.buffer, toFreeList]

lemma restore_restore (index : IndexedFreeList) : index.restore.restore = index.restore := by
  by_cases h : index.restored <;> simp [restore, h]

/-! ## Allocation -/

lemma Coherent.countLookup (h : index.Coherent pageSize) : index.countLookup.Coherent pageSize :=
  { h with }

lemma Coherent.insertPart (h : index.Coherent pageSize) {part : Option Extent}
    (hv : index.regions.values = before ++ after)
    (hsep : SeparatedExtents (before ++ (part.toList ++ after))) :
    (index.insertPart part).Coherent pageSize ∧
      (index.insertPart part).regions.values = before ++ (part.toList ++ after) ∧
      (index.insertPart part).totalBytes = index.totalBytes := by
  cases part with
  | none => exact ⟨h, hv, rfl⟩
  | some e =>
    obtain ⟨hc, hcv⟩ := h.insert hv hsep
    exact ⟨hc, hcv, rfl⟩

lemma Coherent.retainEdges (h : index.Coherent pageSize) {r a : Extent}
    (hv : index.regions.values = before ++ after) (hsep : SeparatedExtents (before ++ r :: after))
    (hin : r.start ≤ a.start ∧ a.stop ≤ r.stop) (htotal : a.len ≤ index.totalBytes) :
    ∃ index', index.retainEdges r a = .ok index' ∧ index'.Coherent pageSize ∧
      index'.regions.values = before ++ (pieces a r ++ after) ∧
      index'.totalBytes = index.totalBytes - a.len := by
  have hapos := a.start_lt_stop
  have hpieces : pieces a r = (Extent.between r.start a.start).toList ++
      (Extent.between a.stop r.stop).toList := by
    rw [pieces, min_eq_right (by omega), max_eq_right (by omega)]
  obtain ⟨hpsep, hpin⟩ := pieces_spec a r
  have hsplice := hsep.splice hpsep hpin
  rw [hpieces, append_assoc] at hsplice
  -- the head goes between `before` and `after`, then the tail between the head and `after`
  obtain ⟨h₁, hv₁, ht₁⟩ := h.insertPart hv (hsplice.sublist
    ((List.Sublist.refl _).append ((List.Sublist.refl _).append (sublist_append_right _ _))))
  rw [← append_assoc] at hv₁ hsplice
  obtain ⟨h₂, hv₂, ht₂⟩ := h₁.insertPart hv₁ hsplice
  rw [ht₁] at ht₂
  refine ⟨{ (index.insertPart (Extent.between r.start a.start)).insertPart
      (Extent.between a.stop r.stop) with totalBytes := index.totalBytes - a.len }, ?_,
    { h₂ with }, ?_, rfl⟩
  · simp only [IndexedFreeList.retainEdges, subtract, ht₂, checkedSub_eq_some.mpr ⟨htotal, rfl⟩,
      expect_some, ok_bind]
  · rw [hpieces, append_assoc, ← append_assoc]
    exact hv₂

lemma Coherent.carve (h : index.Coherent pageSize) (hcan : index.toFreeList.Canonical)
    {r a : Extent} (hr : r ∈ index.regions.values) (hin : r.start ≤ a.start ∧ a.stop ≤ r.stop) :
    ∃ index₁ index', index.remove r.start = .ok (r, index₁) ∧
      index₁.retainEdges r a = .ok index' ∧ index'.Coherent pageSize ∧
      index'.toFreeList.Canonical ∧
      index'.toFreeList.bytes = index.toFreeList.bytes \ a.bytes := by
  obtain ⟨before, after, hv⟩ := append_of_mem hr
  obtain ⟨index₁, hrem, h₁, hv₁, ht₁⟩ := h.remove hv
  have hget : index.toFreeList.regions[before.length]? = some r := by
    show index.regions.values[before.length]? = some r
    rw [hv, getElem?_append_right le_rfl]
    simp
  obtain ⟨htotal, -, hcan', hbytes⟩ := FreeList.replace_pieces hcan hget hin
  have hregions : index.toFreeList.regions = before ++ r :: after := hv
  rw [hregions, take_left, drop_append] at hcan' hbytes
  simp only [Nat.add_sub_cancel_left, drop_one, tail_cons, Nat.le_add_right,
    drop_of_length_le, nil_append] at hcan' hbytes
  obtain ⟨index', hretain, h', hv', ht'⟩ := h₁.retainEdges hv₁ (hv ▸ h.separated) hin
    (by rw [ht₁]; exact htotal)
  have hlist : index'.toFreeList = ⟨before ++ (pieces a r ++ after),
      index.toFreeList.totalBytes - a.len⟩ := FreeList.ext hv' (by rw [ht₁] at ht'; exact ht')
  refine ⟨index₁, index', hrem, hretain, h', by rw [hlist]; exact hcan', ?_⟩
  rw [hlist]
  exact hbytes

/-- An index stands for a list. -/
structure Represents (pageSize : Option FileSpacePageSize) (index : IndexedFreeList)
    (l : FreeList) : Prop where
  coherent : index.Coherent pageSize
  list : index.toFreeList = l

/-- An allocation that both sides carve out of the same region leaves the index standing for the
list. -/
lemma Represents.carve {l' : FreeList} (h : Represents pageSize index l) (hl : l.Canonical)
    (hl' : l'.Canonical) {len : ℕ} {r a : Extent} (halloc : l.Allocates len (some a) l')
    (hr : r ∈ l.regions) (hin : r.start ≤ a.start ∧ a.stop ≤ r.stop) :
    ∃ index₁ index', index.remove r.start = .ok (r, index₁) ∧
      index₁.retainEdges r a = .ok index' ∧ Represents pageSize index' l' := by
  obtain ⟨hcoh, rfl⟩ := h
  obtain ⟨index₁, index', hrem, hretain, hcoh', hcan', hbytes⟩ := hcoh.carve hl hr hin
  refine ⟨index₁, index', hrem, hretain, hcoh', hcan'.eq_of_bytes_eq hl' ?_⟩
  rw [hbytes, halloc.2.2]

lemma Represents.allocate (h : Represents pageSize index l) (hl : l.Canonical) (hsize : 0 < size) :
    ∃ result index' l', index.allocate size = .ok (result, index') ∧
      l.alloc size = .ok (result, l') ∧ l'.Canonical ∧ l.Allocates size result l' ∧
      Represents pageSize index' l' := by
  obtain ⟨result, l', halloc, hcan', heff, hbest, hnone⟩ := FreeList.alloc_spec hl size
  obtain ⟨hcoh, hlist⟩ := h
  have hlook := hcoh.countLookup
  have hvalues : index.countLookup.regions.values = l.regions := by rw [← hlist]; rfl
  have hsizes := hlook.sizes
  rw [hvalues] at hsizes
  cases hfind : index.countLookup.sizes.find size with
  | none =>
    have hno := hsizes.find_none hfind
    cases result with
    | some a =>
      obtain ⟨r, hr, -⟩ := hbest a rfl
      exact absurd hr.fits (not_le.mpr (hno r hr.mem r.len rfl))
    | none =>
      obtain rfl : l' = l := heff
      exact ⟨none, index.countLookup, l', by simp only [IndexedFreeList.allocate, hfind], halloc, hl, rfl, hlook,
        hlist⟩
  | some start =>
    obtain ⟨r, hr, c, hstart, hc, hfits, hleast⟩ := hsizes.find_some hfind
    cases hc
    have hrbest : IsBest some size l.regions r r :=
      ⟨hr, rfl, hfits, fun r' hr' c' hc' hle => by
        cases hc'
        exact hleast r' hr' _ rfl hle⟩
    cases result with
    | none =>
      rcases hnone rfl with hzero | hno
      · omega
      · exact absurd hrbest (not_isBest_of_noFit hno)
    | some a =>
      obtain ⟨r₁, hr₁, hastart⟩ := hbest a rfl
      obtain ⟨rfl, -⟩ := hrbest.unique hr₁ hl.separated
      have hlen : a.len = size := heff.1
      have hin : r.start ≤ a.start ∧ a.stop ≤ r.stop := by
        rw [Extent.stop_eq, Extent.stop_eq]
        omega
      obtain ⟨index₁, index', hrem, hretain, hrep⟩ :=
        (Represents.mk hlook hlist).carve hl hcan' heff hr hin
      have hnew : Extent.new r.start size = some a := Extent.new_eq_some.mpr ⟨hastart, hlen⟩
      have hhead : Extent.between r.start a.start = none :=
        Extent.between_eq_none (le_of_eq hastart)
      rw [retainEdges, hhead] at hretain
      refine ⟨some a, index', l', ?_, halloc, hcan', heff, hrep⟩
      have hretain' : (index₁.insertPart (Extent.between a.stop r.stop)).subtract a = .ok index' :=
        hretain
      simp only [IndexedFreeList.allocate, hfind, ← hstart, hrem, ok_bind, hnew, expect_some, hretain']

lemma Represents.allocateWholeUnits (h : Represents (some page) index l) (hl : l.Canonical)
    (hsize : 0 < size) (hunits : page.get ∣ size) :
    ∃ result index' l', index.allocateWholeUnits size = .ok (result, index') ∧
      l.allocWholeUnits size page.get = .ok (result, l') ∧ l'.Canonical ∧
      l.Allocates size result l' ∧ (∀ a, result = some a → page.get ∣ a.start) ∧
      Represents (some page) index' l' := by
  obtain ⟨result, l', halloc, hcan', heff, hbest, hnone⟩ := FreeList.allocWholeUnits_spec hl hunits
  obtain ⟨hcoh, hlist⟩ := h
  have hlook := hcoh.countLookup
  have hvalues : index.countLookup.regions.values = l.regions := by rw [← hlist]; rfl
  have hinteriors := hlook.interiors
  rw [hvalues] at hinteriors
  have halign : index.countLookup.alignment = some page.unit := hlook.alignment
  have hmod : (size % (page.unit : ℕ) == 0) = true := by
    simpa using Nat.mod_eq_zero_of_dvd hunits
  have hcapacity : interiorLen index.countLookup.alignment =
      fun r => (r.alignedInterior page.get).map Extent.len := by
    rw [halign]
    rfl
  rw [hcapacity] at hinteriors
  cases hfind : index.countLookup.interiors.find size with
  | none =>
    have hno := hinteriors.find_none hfind
    cases result with
    | some a =>
      obtain ⟨r, c, hr, -⟩ := hbest a rfl
      have hlt := hno r hr.mem c.len (by rw [hr.part]; rfl)
      exact absurd hr.fits (not_le.mpr hlt)
    | none =>
      obtain rfl : l' = l := heff
      refine ⟨none, index.countLookup, l', ?_, halloc, hl, rfl, by simp, hlook, hlist⟩
      simp only [IndexedFreeList.allocateWholeUnits, halign, assert_of hmod, ok_bind, hfind]
  | some start =>
    obtain ⟨r, hr, n, hstart, hn, hfits, hleast⟩ := hinteriors.find_some hfind
    obtain ⟨c, hc, rfl⟩ := Option.map_eq_some_iff.mp hn
    have hrbest : IsBest (fun r => r.alignedInterior page.get) size l.regions r c :=
      ⟨hr, hc, hfits, fun r' hr' c' hc' hle => hleast r' hr' _ (by rw [hc']; rfl) hle⟩
    cases result with
    | none =>
      have hpage := page.min_le
      rcases hnone rfl with hzero | hzero | hno
      · omega
      · omega
      · exact absurd hrbest (not_isBest_of_noFit hno)
    | some a =>
      obtain ⟨r₁, c₁, hr₁, hastart⟩ := hbest a rfl
      obtain ⟨rfl, rfl⟩ := hrbest.unique hr₁ hl.separated
      have hlen : a.len = size := heff.1
      obtain ⟨hcdvd, -, hcin1, -, hcin2, -⟩ := Extent.alignedInterior_spec hc
      have hin : r.start ≤ a.start ∧ a.stop ≤ r.stop := by
        rw [Extent.stop_eq] at hcin2 ⊢
        omega
      obtain ⟨index₁, index', hrem, hretain, hrep⟩ :=
        (Represents.mk hlook hlist).carve hl hcan' heff hr hin
      have hnew : Extent.new c.start size = some a := Extent.new_eq_some.mpr ⟨hastart, hlen⟩
      refine ⟨some a, index', l', ?_, halloc, hcan', heff, ?_, hrep⟩
      swap
      · rintro _ ⟨⟩
        rwa [hastart]
      have hc' : r.alignedInterior (page.unit : ℕ) = some c := hc
      simp only [IndexedFreeList.allocateWholeUnits, halign, assert_of hmod, ok_bind, hfind,
        ← hstart, hrem, hc', expect_some, hnew, hretain]

/-- A block capacity depends on the requested size only through its comparison with a page. -/
lemma blockCapacity_eq (r : Extent) (page : FileSpacePageSize) (size : ℕ) :
    r.blockCapacity page size =
      if size < page.get then r.blockCapacity page 1 else r.blockCapacity page page.get := by
  have hpage := page.min_le
  have hone : 1 < page.get := by omega
  split_ifs with h
  · simp only [Extent.blockCapacity, if_pos h, if_pos hone]
  · simp only [Extent.blockCapacity, if_neg h, if_neg (lt_irrefl page.get)]

lemma blockIndex_find {regions : List Extent} (h : blocks.Indexes (some page) regions) (size : ℕ) :
    (∀ start, blocks.find size = some start → ∃ r, r.start = start ∧
        IsBestBlock page size regions r) ∧
      (blocks.find size = none → ∀ r ∈ regions, r.blockCapacity page size < size) := by
  obtain rfl : page = blocks.pageSize := Option.some.inj h.page
  obtain ⟨index, hindex, hcap⟩ : ∃ index : CapacityIndex, blocks.find size = index.find size ∧
      index.Indexes (fun r => some (r.blockCapacity blocks.pageSize size)) regions := by
    simp only [blockCapacity_eq _ _ size, BlockIndex.find]
    by_cases hsmall : size < blocks.pageSize.get
    · simp only [if_pos hsmall]
      exact ⟨_, rfl, h.small⟩
    · simp only [if_neg hsmall]
      exact ⟨_, rfl, h.large⟩
  rw [hindex]
  refine ⟨fun start hfind => ?_, fun hfind r hr => hcap.find_none hfind r hr _ rfl⟩
  obtain ⟨r, hr, c, hstart, hc, hfits, hleast⟩ := hcap.find_some hfind
  cases hc
  exact ⟨r, hstart, hr, hfits, fun r' hr' => hleast r' hr' _ rfl⟩

/-- The block index is coherent from its first use on. -/
lemma Coherent.blockIndex (h : index.Coherent (some page)) :
    ({ index with blocks := some (index.blockIndex page) } : IndexedFreeList).Coherent
      (some page) := by
  refine { h with blocks := ?_ }
  intro b hb
  cases hb
  unfold IndexedFreeList.blockIndex
  cases hblocks : index.blocks with
  | some b => exact h.blocks b hblocks
  | none => exact BlockIndex.indexes_foldl _

lemma Represents.allocateBlock (h : Represents (some page) index l) (hl : l.Canonical)
    (request : ReservationRequest) :
    ∃ result index' l', index.allocateBlock request page = .ok (result, index') ∧
      l.allocBlock request page = .ok (result, l') ∧ l'.Canonical ∧
      l.Allocates request.size result l' ∧
      (∀ a, result = some a → ∃ start, request.placeAfter start (some page) = .ok a) ∧
      Represents (some page) index' l' := by
  obtain ⟨result, l', halloc, hcan', heff, hbest, hnone⟩ := FreeList.allocBlock_spec hl request page
  obtain ⟨hcoh, hlist⟩ := h
  have hlook := hcoh.countLookup.blockIndex
  have hvalues : index.countLookup.regions.values = l.regions := by rw [← hlist]; rfl
  obtain ⟨hsome, hno⟩ := blockIndex_find (hlook.blocks _ rfl) request.size
  rw [hvalues] at hsome hno
  cases hfind : (index.countLookup.blockIndex page).find request.size with
  | none =>
    cases result with
    | some a =>
      obtain ⟨r, hr, -⟩ := hbest a rfl
      exact absurd hr.fits (not_le.mpr (hno hfind r hr.mem))
    | none =>
      obtain rfl : l' = l := heff
      refine ⟨none, _, l', ?_, halloc, hl, rfl, by simp, hlook, hlist⟩
      simp only [IndexedFreeList.allocateBlock, hfind]
  | some start =>
    obtain ⟨r, hstart, hr⟩ := hsome start hfind
    cases result with
    | none => exact absurd hr.fits (not_le.mpr (hnone rfl r hr.mem))
    | some a =>
      obtain ⟨r₁, hr₁, hplace⟩ := hbest a rfl
      obtain rfl := hr.unique hr₁ hl.separated
      obtain ⟨a', ha', -, hin⟩ := placeAfter_of_capacity hr.fits
      obtain rfl : a' = a := Except.ok.inj (ha'.symm.trans hplace)
      obtain ⟨index₁, index', hrem, hretain, hrep⟩ :=
        (Represents.mk hlook hlist).carve hl hcan' heff hr.mem hin
      have hget : index.countLookup.regions.get? r.start = some r :=
        hlook.keyed.get?_of_mem (by rw [hvalues]; exact hr.mem)
      refine ⟨some a', index', l', ?_, halloc, hcan', heff, fun _ h => ⟨_, Option.some.inj h ▸ ha'⟩, hrep⟩
      simp only [IndexedFreeList.allocateBlock, hfind, ← hstart, hget, ha', hrem, ok_bind,
        hretain]

/-! ## Returning space -/

lemma Coherent.joinPrevious (h : index.Coherent pageSize) {pre post : List Extent}
    {previous next : Option Extent} (ha : Around index.regions.values e pre previous next post) :
    ∃ index', index.joinPrevious e = .ok (unionStart previous e, index') ∧
      index'.Coherent pageSize ∧ index'.regions.values = pre ++ (next.toList ++ post) ∧
      index'.totalBytes = index.totalBytes := by
  have hlast := ha.lastBelow_eq h.keyed
  unfold IndexedFreeList.joinPrevious
  rw [hlast]
  cases previous with
  | some a =>
    have hstop : a.stop = e.start := ha.previous_eq a rfl
    have hv : index.regions.values = pre ++ a :: (next.toList ++ post) := by
      rw [ha.split]
      simp
    obtain ⟨index', hrem, h', hv', ht'⟩ := h.remove hv
    refine ⟨index', ?_, h', hv', ht'⟩
    simp [hstop, assert, hrem, unionStart]
  | none =>
    refine ⟨index, ?_, h, by rw [ha.split]; simp, rfl⟩
    cases hpre : pre.getLast? with
    | none => simp [hpre, unionStart]
    | some a =>
      have hstop := ha.pre_lt a (mem_of_getLast? hpre)
      simp [hpre, assert, hstop.le, hstop.ne, unionStart]

lemma Coherent.joinNext (h : index.Coherent pageSize) {regions pre post : List Extent}
    {previous next : Option Extent} (ha : Around regions e pre previous next post)
    (hsep : SeparatedExtents regions) (hv : index.regions.values = pre ++ (next.toList ++ post)) :
    ∃ index', index.joinNext (unionStart previous e) e = .ok (unionStop next e, index') ∧
      index'.Coherent pageSize ∧ index'.regions.values = pre ++ post ∧
      index'.totalBytes = index.totalBytes := by
  have hfirst := ha.firstFrom_eq hsep h.keyed hv
  unfold IndexedFreeList.joinNext
  rw [hfirst]
  cases next with
  | some a =>
    have hstart : a.start = e.stop := ha.next_eq a rfl
    obtain ⟨index', hrem, h', hv', ht'⟩ := h.remove hv
    refine ⟨index', ?_, h', hv', ht'⟩
    rw [hstart] at hrem
    simp [hstart, assert, hrem, unionStop]
  | none =>
    refine ⟨index, ?_, h, hv, rfl⟩
    cases hpost : post with
    | nil => simp [unionStop]
    | cons a rest =>
      have hstart := ha.post_lt a (by simp [hpost])
      simp [assert, hstart.le, hstart.ne, unionStop]

lemma Represents.free (h : Represents pageSize index l) (hl : l.Canonical)
    (hd : Disjoint l.bytes e.bytes) :
    ∃ index' l', index.free e = .ok index' ∧ l.free e = .ok l' ∧ l'.Canonical ∧
      l'.bytes = l.bytes ∪ e.bytes ∧ Represents pageSize index' l' := by
  obtain ⟨hcoh, rfl⟩ := h
  obtain ⟨l', hfree, hcan', hbytes⟩ := FreeList.free_spec hl hd
  obtain ⟨pre, previous, next, post, ha⟩ :=
    exists_around hcoh.separated (FreeList.disjoint_bytes_iff.mp hd)
  obtain ⟨index₁, hprev, h₁, hv₁, ht₁⟩ := hcoh.joinPrevious ha
  obtain ⟨index₂, hnext, h₂, hv₂, ht₂⟩ := h₁.joinNext ha hcoh.separated hv₁
  obtain ⟨run, hrun, hs, ht⟩ := ha.exists_union
  obtain ⟨hsep, hcov, hlens⟩ := ha.union_spec hcoh.separated hs ht
  obtain ⟨h₃, hv₃⟩ := h₂.insert hv₂ hsep
  have htotal : index.totalBytes = lens index.regions.values := hl.total
  have hlt := lens_lt hsep.ascending
  have hsame : (index₂.insert run).totalBytes = index.totalBytes := ht₂.trans ht₁
  have hadd := checkedAdd_of_lt (show index.totalBytes + e.len < 2 ^ 64 by omega)
  have hlist : (⟨pre ++ run :: post, index.totalBytes + e.len⟩ : FreeList) = l' := by
    refine FreeList.Canonical.eq_of_bytes_eq ⟨hsep, ?_⟩ hcan' ?_
    · show index.totalBytes + e.len = lens (pre ++ run :: post)
      omega
    · rw [hbytes]
      exact hcov
  refine ⟨{ index₂.insert run with totalBytes := index.totalBytes + e.len }, l', ?_, hfree, hcan',
    hbytes, { h₃ with }, ?_⟩
  · simp only [IndexedFreeList.free, hprev, ok_bind, hnext, hrun, expect_some, hsame, hadd]
  · rw [← hlist]
    exact FreeList.ext hv₃ rfl

/-- The index finds the touching regions that a search of all of them finds. -/
lemma Represents.merges_iff (h : Represents pageSize index l)
    (hd : Disjoint l.bytes e.bytes) : index.merges e = l.adjoins e := by
  obtain ⟨hcoh, rfl⟩ := h
  obtain ⟨pre, previous, next, post, ha⟩ :=
    exists_around hcoh.separated (FreeList.disjoint_bytes_iff.mp hd)
  have hleft : ((index.regions.lastBelow e.start).any fun entry => entry.2.stop == e.start) =
      previous.isSome := by
    rw [ha.lastBelow_eq hcoh.keyed]
    cases previous with
    | some a => simp [ha.previous_eq a rfl]
    | none =>
      cases hpre : pre.getLast? with
      | none => simp [hpre]
      | some a => simp [hpre, (ha.pre_lt a (mem_of_getLast? hpre)).ne]
  have hstop : (index.toFreeList.regions.any fun region => region.stop == e.start) =
      previous.isSome := by
    rw [Bool.eq_iff_iff]
    simp only [any_eq_true, beq_iff_eq]
    constructor
    · rintro ⟨r, hr, hrstop⟩
      have hmem : r ∈ (pre ++ previous.toList) ++ (next.toList ++ post) := ha.split ▸ hr
      rcases mem_append.mp hmem with hmem | hmem
      · rcases mem_append.mp hmem with hmem | hmem
        · exact absurd hrstop (ha.pre_lt r hmem).ne
        · rw [Option.mem_toList.mp hmem]
          rfl
      · have hle := ha.stop_le_of_mem hmem
        have hpos := e.start_lt_stop
        have hrpos := r.start_lt_stop
        omega
    · intro hsome
      obtain ⟨a, rfl⟩ := Option.isSome_iff_exists.mp hsome
      refine ⟨a, ?_, ha.previous_eq a rfl⟩
      show a ∈ index.regions.values
      rw [ha.split]
      simp
  -- the region after the extent is found by its key
  have hstart : (index.toFreeList.regions.any fun region => region.start == e.stop) =
      (index.regions.get? e.stop).isSome := by
    rw [Bool.eq_iff_iff]
    simp only [any_eq_true, beq_iff_eq, Option.isSome_iff_exists]
    exact ⟨fun ⟨r, hr, hrstart⟩ => ⟨r, hrstart ▸ hcoh.keyed.get?_of_mem hr⟩,
      fun ⟨a, hget⟩ => ⟨a, hcoh.keyed.get?_eq_some hget⟩⟩
  rw [merges, FreeList.adjoins, hleft, hstop, hstart]

lemma Represents.release (h : Represents pageSize index l) (hl : l.Canonical) (threshold : ℕ)
    (hd : Disjoint l.bytes e.bytes) :
    ∃ result index' l', index.release threshold e = .ok (result, index') ∧
      l.release threshold e = .ok (result, l') ∧ l'.Canonical ∧ Represents pageSize index' l' := by
  obtain ⟨index', l', hindex, hlist, hcan', -, hrep⟩ := h.free hl hd
  have hmerges : TrackedSpace.merges index e = TrackedSpace.merges l e := h.merges_iff hd
  rw [IndexedFreeList.release, TrackedSpace.release_eq hindex, FreeList.release,
    TrackedSpace.release_eq hlist, hmerges]
  split_ifs
  · exact ⟨_, _, _, rfl, rfl, hcan', hrep⟩
  · exact ⟨_, _, _, rfl, rfl, hcan', hrep⟩
  · exact ⟨_, _, _, rfl, rfl, hl, h⟩

end IndexedFreeList

end Hdf5Pure.Space
