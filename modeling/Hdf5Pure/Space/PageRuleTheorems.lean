import Hdf5Pure.Space.FlatAdmissionTheorems
import Hdf5Pure.Space.PageAdmissionTheorems

/-!
# The PAGE admission rule in terms of bytes

Whether a return merges depends on the bytes of each class next to it: one byte inside a page, or a
whole page at a page boundary. The class indexes and the lists both decide that.
-/

namespace Hdf5Pure.Space

open Checked IntervalLists Saturation TrackedSpace List

/-! ## The rule of one class -/

def NearClass (pageSize : ℕ) (bytes : Set ℕ) (e : Extent) : Prop :=
  if e.len < pageSize then
    (FreeBefore bytes 1 e ∧ ¬ pageSize ∣ e.start) ∨ (FreeAfter bytes 1 e ∧ ¬ pageSize ∣ e.stop)
  else (FreeBefore bytes pageSize e ∧ pageSize ∣ e.start) ∨
    (FreeAfter bytes pageSize e ∧ pageSize ∣ e.stop)

variable {pageSize : ℕ} {e : Extent}

lemma NearClass.mono {s t : Set ℕ} (h : NearClass pageSize s e)
    (hst : s ⊆ t) : NearClass pageSize t e := by
  unfold NearClass at h ⊢
  split_ifs at h ⊢ <;>
    exact h.imp (And.imp_left fun h => h.mono hst) (And.imp_left fun h => h.mono hst)

def MergesRegion (pageSize : ℕ) (e r : Extent) : Prop :=
  if e.len < pageSize then r.adjoinsWithin e pageSize = true
  else r.adjoinsWholeUnit e pageSize = true

variable {r : Extent} {regions : List Extent} {index' : ClassIndex}

lemma adjoinsWithin_iff {unit : ℕ} :
    r.adjoinsWithin e unit = true ↔
      (r.stop = e.start ∧ ¬ unit ∣ e.start) ∨ (r.start = e.stop ∧ ¬ unit ∣ e.stop) := by
  simp [Extent.adjoinsWithin, Nat.dvd_iff_mod_eq_zero]

lemma adjoinsWholeUnit_iff {unit : ℕ} :
    r.adjoinsWholeUnit e unit = true ↔ unit ≤ r.len ∧
      ((r.stop = e.start ∧ unit ∣ e.start) ∨ (r.start = e.stop ∧ unit ∣ e.stop)) := by
  simp [Extent.adjoinsWholeUnit, Nat.dvd_iff_mod_eq_zero]

/-- In a separated list the merging regions are told by the bytes alone. -/
lemma nearClass_iff (hsep : SeparatedExtents regions) (hd : Disjoint (covered regions) e.bytes)
    (hpos : 0 < pageSize) :
    NearClass pageSize (covered regions) e ↔ ∃ r ∈ regions, MergesRegion pageSize e r := by
  unfold NearClass MergesRegion
  split_ifs with hlen
  · rw [freeBefore_iff hsep hd one_pos, freeAfter_iff hsep hd one_pos]
    have hone : ∀ r : Extent, 1 ≤ r.len := fun r => r.len_pos
    simp only [adjoinsWithin_iff]
    grind
  · rw [freeBefore_iff hsep hd hpos, freeAfter_iff hsep hd hpos]
    simp only [adjoinsWholeUnit_iff]
    grind

/-- What makes an extent merge that did not merge before lies in a run that ends at the extent. -/
lemma NearClass.touches_grown {before : Set ℕ} {added run : Extent}
    (hsep : SeparatedExtents regions) (hpos : 0 < pageSize)
    (hcov : covered regions = before ∪ added.bytes) (hrun : run ∈ regions)
    (hin : added.bytes ⊆ run.bytes) (hd : Disjoint (covered regions) e.bytes)
    (h : NearClass pageSize (covered regions) e) (hnot : ¬ NearClass pageSize before e) :
    e.stop = run.start ∨ e.start = run.stop := by
  have hepos := e.start_lt_stop
  -- a stretch next to the extent that was not free before is part of the run
  have hgrown : ∀ s t, s < t → Set.Ico s t ⊆ covered regions → ¬ Set.Ico s t ⊆ before →
      run.start ≤ s ∧ t ≤ run.stop := by
    intro s t hst hsub hnew
    obtain ⟨r, hr, hle, hge⟩ := hsep.exists_of_Ico_subset hst hsub
    obtain ⟨x, hx, hxb⟩ := Set.not_subset.mp hnew
    have hadded : x ∈ added.bytes := by
      have := hsub hx
      rw [hcov] at this
      exact this.resolve_left hxb
    have hxrun := hin hadded
    rw [Extent.mem_bytes] at hxrun
    have hx' := hx
    rw [Set.mem_Ico] at hx'
    by_cases heq : r = run
    · rw [← heq]
      exact ⟨hle, hge⟩
    · have := hsep.apart hr hrun heq
      omega
  have hdr := Extent.disjoint_iff.mp (hd.mono_left (bytes_subset_covered hrun))
  have hbefore : ∀ n, 0 < n → FreeBefore (covered regions) n e → ¬ FreeBefore before n e →
      e.start = run.stop := by
    rintro n hn ⟨hle, hsub⟩ hnew
    have := hgrown _ _ (show e.start - n < e.start by omega) hsub fun h => hnew ⟨hle, h⟩
    omega
  have hafter : ∀ n, 0 < n → FreeAfter (covered regions) n e → ¬ FreeAfter before n e →
      e.stop = run.start := by
    intro n hn hsub hnew
    have := hgrown _ _ (show e.stop < e.stop + n by omega) hsub hnew
    omega
  unfold NearClass at h hnot
  split_ifs at h hnot with hlen
  · rcases h with ⟨hfree, hwithin⟩ | ⟨hfree, hwithin⟩
    · exact .inr (hbefore 1 one_pos hfree fun h => hnot (.inl ⟨h, hwithin⟩))
    · exact .inl (hafter 1 one_pos hfree fun h => hnot (.inr ⟨h, hwithin⟩))
  · rcases h with ⟨hfree, hunit⟩ | ⟨hfree, hunit⟩
    · exact .inr (hbefore pageSize hpos hfree fun h => hnot (.inl ⟨h, hunit⟩))
    · exact .inl (hafter pageSize hpos hfree fun h => hnot (.inr ⟨h, hunit⟩))

lemma MergesRegion.touches (h : MergesRegion pageSize e r) :
    r.stop = e.start ∨ r.start = e.stop := by
  unfold MergesRegion at h
  split_ifs at h with hlen
  · exact (adjoinsWithin_iff.mp h).imp And.left And.left
  · exact (adjoinsWholeUnit_iff.mp h).2.imp And.left And.left

/-! ## Class indexes -/

namespace ClassIndex

variable {index : ClassIndex} {e : Extent}

lemma Coherent.lastBelow_eq (h : index.Coherent) (hr : r ∈ index.regions.values)
    (htouch : r.stop = e.start) : index.regions.lastBelow e.start = some (r.start, r) := by
  have hrpos := r.start_lt_stop
  have hget := h.keyed.get?_of_mem hr
  cases hlast : index.regions.lastBelow e.start with
  | none =>
    have := OrdMap.lastBelow_eq_none hlast hget
    omega
  | some found =>
    obtain ⟨address, q⟩ := found
    obtain ⟨hq, hlt, hmax⟩ := OrdMap.lastBelow_eq_some hlast
    obtain ⟨hmem, hkey⟩ := h.keyed.get?_eq_some hq
    have hle := hmax _ _ hget (by omega)
    have hqpos := q.start_lt_stop
    by_cases heq : r = q
    · rw [heq, hkey]
    · have := h.separated.apart hr hmem heq
      simp only at *
      omega

/-- The two lookups find every region that merges with the extent. -/
lemma Coherent.merges_iff (h : index.Coherent) (pageSize : FileSpacePageSize) :
    index.merges e pageSize = true ↔
      ∃ r ∈ index.regions.values, MergesRegion pageSize.get e r := by
  have hreg : ∀ r : Extent, (if e.len < pageSize.get then r.adjoinsWithin e pageSize.get
      else r.adjoinsWholeUnit e pageSize.get) = true ↔ MergesRegion pageSize.get e r := by
    intro r
    unfold MergesRegion
    split_ifs <;> exact Iff.rfl
  unfold ClassIndex.merges
  simp only [any_eq_true, mem_append, Option.mem_toList, hreg]
  constructor
  · rintro ⟨r, hleft | hright, hmerge⟩
    · obtain ⟨found, hlast, rfl⟩ := Option.map_eq_some_iff.mp hleft
      have hget := (OrdMap.lastBelow_eq_some hlast).1
      exact ⟨found.2, (h.keyed.get?_eq_some hget).1, hmerge⟩
    · exact ⟨r, (h.keyed.get?_eq_some hright).1, hmerge⟩
  · rintro ⟨r, hr, hmerge⟩
    rcases hmerge.touches with hbefore | hafter
    · exact ⟨r, .inl (by rw [h.lastBelow_eq hr hbefore]; rfl), hmerge⟩
    · exact ⟨r, .inr (hafter ▸ h.keyed.get?_of_mem hr), hmerge⟩

lemma joinPrevious_le {start : ℕ} (h : index.joinPrevious e = .ok (start, index')) :
    start ≤ e.start := by
  unfold joinPrevious at h
  cases hlast : index.regions.lastBelow e.start with
  | none =>
    rw [hlast] at h
    exact (Prod.mk.inj (Except.ok.inj h)).1.ge
  | some found =>
    obtain ⟨address, previous⟩ := found
    have hpos := previous.start_lt_stop
    rw [hlast] at h
    obtain ⟨-, -, h⟩ := bind_eq_ok.mp h
    split_ifs at h with htouch
    · have := (Prod.mk.inj (Except.ok.inj h)).1
      omega
    · exact (Prod.mk.inj (Except.ok.inj h)).1.ge

lemma le_joinNext {start stop : ℕ} (h : index.joinNext start e = .ok (stop, index')) :
    e.stop ≤ stop := by
  unfold joinNext at h
  cases hfirst : index.regions.firstFrom start with
  | none =>
    rw [hfirst] at h
    exact (Prod.mk.inj (Except.ok.inj h)).1.le
  | some found =>
    obtain ⟨address, next⟩ := found
    have hpos := next.start_lt_stop
    rw [hfirst] at h
    obtain ⟨-, -, h⟩ := bind_eq_ok.mp h
    split_ifs at h with htouch
    · have := (Prod.mk.inj (Except.ok.inj h)).1
      omega
    · exact (Prod.mk.inj (Except.ok.inj h)).1.le

lemma insert_run {run : Extent} (h : index.insert e = .ok (run, index')) :
    run ∈ index'.regions.values ∧ e.bytes ⊆ run.bytes := by
  obtain ⟨⟨start, index₁⟩, hprev, h⟩ := bind_eq_ok.mp h
  obtain ⟨⟨stop, index₂⟩, hnext, h⟩ := bind_eq_ok.mp h
  have hstart := joinPrevious_le hprev
  have hstop := le_joinNext hnext
  dsimp only at h
  cases hbetween : Extent.between start stop with
  | none =>
    rw [hbetween] at h
    cases h
  | some found =>
    rw [hbetween, expect_some, ok_bind] at h
    obtain ⟨rfl, rfl⟩ := Prod.mk.inj (Except.ok.inj h)
    obtain ⟨hs, ht⟩ := Extent.between_eq_some.mp hbetween
    refine ⟨?_, ?_⟩
    · have hget : (index₂.regions.insert start found).get? start = some found := by
        rw [OrdMap.get?_insert, if_pos rfl]
      exact mem_map.mpr ⟨(start, found), OrdMap.get?_eq_some_iff.mp hget, rfl⟩
    · rintro x ⟨hx, hx'⟩
      exact ⟨by omega, by omega⟩

end ClassIndex

/-! ## The PAGE rule -/

namespace PagedPostFree

/-- The bytes of one class once the entries `A` have joined. -/
def trackedWith (post : PagedPostFree) (A : Set (Extent × FreeClass)) (c : FreeClass) : Set ℕ :=
  (post.list c).bytes ∪ classEntryBytes c A

/-- Where an extent merges once the entries `A` have joined. -/
def near (post : PagedPostFree) (A : Set (Extent × FreeClass)) (e : Extent) : Prop :=
  (post.pageSize.get ≤ e.len ∧ post.unclassified.adjoins e = true) ∨
    ∃ c, NearClass post.pageSize.get (post.trackedWith A c) e

/-- The state `post'` is `post` with the entries `taken`. -/
structure Holds (post post' : PagedPostFree) (taken : Returns) : Prop where
  pageSize : post'.pageSize = post.pageSize
  unclassified : post'.unclassified = post.unclassified
  canonical : ∀ c, (post'.list c).Canonical
  bytes : ∀ c, (post'.list c).bytes = post.trackedWith {x | x ∈ taken} c

variable {post post' : PagedPostFree} {returns taken : Returns}
  {entry : Extent × FreeClass}

lemma near_mono {A B : Set (Extent × FreeClass)} (h : A ⊆ B) (hnear : post.near A e) :
    post.near B e := by
  refine hnear.imp_right ?_
  rintro ⟨c, hc⟩
  exact ⟨c, hc.mono (Set.union_subset_union_right _ fun _ ⟨e, he, hx⟩ => ⟨e, h he, hx⟩)⟩

lemma pageSize_pos (post : PagedPostFree) : 0 < post.pageSize.get := post.pageSize.get_pos

lemma disjoint_trackedWith (hret : PageAdmission.Returnable post returns)
    {A : Set (Extent × FreeClass)} (hsub : A ⊆ {x | x ∈ returns}) (hmem : entry ∈ returns)
    (hnot : entry ∉ A) (c : FreeClass) : Disjoint (post.trackedWith A c) entry.1.bytes := by
  rw [trackedWith, Set.disjoint_union_left]
  refine ⟨hret.tracked entry hmem c, ?_⟩
  rw [Set.disjoint_left]
  rintro x ⟨e, he, hx⟩ hx'
  obtain rfl := eq_of_mem_bytes hret.disjoint (hsub he) hmem hx hx'
  exact hnot he

lemma Holds.merges_iff (h : post.Holds post' taken)
    (hret : PageAdmission.Returnable post returns) (hsub : taken ⊆ returns)
    (hmem : entry ∈ returns) (hnot : entry ∉ taken) :
    post'.merges entry.1 = true ↔ post.near {x | x ∈ taken} entry.1 := by
  have hclass : ∀ c, NearClass post.pageSize.get (post.trackedWith {x | x ∈ taken} c) entry.1 ↔
      ∃ r ∈ (post'.list c).regions, MergesRegion post.pageSize.get entry.1 r := by
    intro c
    have hd : Disjoint (post.trackedWith {x | x ∈ taken} c) entry.1.bytes :=
      disjoint_trackedWith hret hsub hmem hnot c
    rw [← h.bytes c] at hd ⊢
    exact nearClass_iff (h.canonical c).separated hd post.pageSize_pos
  have hall : (∃ c, ∃ r ∈ (post'.list c).regions, MergesRegion post.pageSize.get entry.1 r) ↔
      (∃ r ∈ post'.metadata.regions, MergesRegion post.pageSize.get entry.1 r) ∨
      (∃ r ∈ post'.raw.regions, MergesRegion post.pageSize.get entry.1 r) ∨
      ∃ r ∈ post'.dead.regions, MergesRegion post.pageSize.get entry.1 r :=
    FreeClass.exists_iff
  simp only [near, hclass, hall]
  unfold PagedPostFree.merges
  rw [h.pageSize, h.unclassified]
  by_cases hlen : entry.1.len < post.pageSize.get
  · simp [hlen, FreeList.adjoinsWithin, MergesRegion]
  · simp [hlen, FreeList.adjoinsWholeUnit, MergesRegion, not_lt.mp hlen, or_comm]

lemma follows (post : PagedPostFree) (hret : PageAdmission.Returnable post returns) :
    Follows returns post.near post.Holds where
  mono := near_mono
  merges := fun hholds hsub hmem hnot => hholds.merges_iff hret hsub hmem hnot
  track := by
    rintro post' taken ⟨e, c⟩ hholds hsub hmem hnot
    have hd : Disjoint (post'.list c).bytes e.bytes := by
      rw [hholds.bytes c]
      exact disjoint_trackedWith hret hsub hmem hnot c
    obtain ⟨post₁, htrack, hrel⟩ := track_spec hholds.canonical hd
    obtain ⟨added, hperm, hbytes⟩ := hrel.split
    rw [append_nil] at hperm
    obtain rfl := perm_singleton.mp hperm.symm
    refine ⟨post₁, htrack, hrel.pageSize.trans hholds.pageSize,
      hrel.unclassified.trans hholds.unclassified, hrel.canonical, ?_⟩
    intro c'
    rw [hbytes c', hholds.bytes c']
    ext x
    simp only [trackedWith, classEntryBytes, Set.mem_union, Set.mem_ofPred_eq, mem_classBytes,
      mem_cons, not_mem_nil, or_false, or_and_right, exists_or, or_assoc]
    exact or_congr_right or_comm

end PagedPostFree

end Hdf5Pure.Space
