import Hdf5Pure.Space.PagedTail
import Hdf5Pure.Space.PostFreeTheorems

/-!
# Planned tails and pending frees

A planned tail is reserved before the pending frees are applied. It was free before the call or
starts at the end of allocation, and every later step leaves it alone.
-/

namespace Hdf5Pure.Space

open Checked PagedPostFree List
open PagedSession (returned)

/-! ## Tracking and releasing at the end -/

lemma PagedPostFree.trackBetween_spec {post : PagedPostFree}
    (hcan : post.Canonical) {start stop : ℕ} {c : FreeClass}
    (hlimit : start < stop → stop < 2 ^ 64)
    (hclear : Disjoint (post.list c).bytes (Set.Ico start stop)) :
    ∃ post', post.trackBetween start stop c = .ok post' ∧ post'.pageSize = post.pageSize ∧
      post'.unclassified = post.unclassified ∧ (∀ c', (post'.list c').Canonical) ∧
      ∀ c', (post'.list c').bytes =
        (post.list c').bytes ∪ {x | c' = c ∧ x ∈ Set.Ico start stop} := by
  unfold PagedPostFree.trackBetween
  by_cases hlt : start < stop
  · obtain ⟨e, he, rfl, rfl⟩ := Extent.exists_between hlt (hlimit hlt)
    obtain ⟨post', htrack, hrel⟩ := track_spec hcan hclear
    rw [he]
    refine ⟨post', htrack, hrel.pageSize, hrel.unclassified, hrel.canonical, fun c' => ?_⟩
    rw [PagedEdit.bytes_of_tracked hrel]
    ext x
    simp [mem_classBytes, Extent.mem_bytes]
  · rw [Extent.between_eq_none (not_lt.mp hlt)]
    refine ⟨post, rfl, rfl, rfl, hcan, fun c' => ?_⟩
    simp [Set.Ico_eq_empty hlt]

namespace PagedEdit.Tiled

variable {post : PagedPostFree} {eoa : ℕ}

lemma mono (h : Tiled post eoa) {eoa' : ℕ} (hle : eoa ≤ eoa') : Tiled post eoa' :=
  ⟨h.canonical, h.unclassified, h.classes, h.apart, fun c x hx => (h.below c x hx).trans_le hle,
    fun x hx => (h.unclassified_below x hx).trans_le hle⟩

lemma trackBetween {start stop : ℕ} (h : Tiled post start) (hle : start ≤ stop)
    (hlimit : stop < 2 ^ 64) (c : FreeClass) :
    ∃ post', post.trackBetween start stop c = .ok post' ∧ Tiled post' stop ∧
      post'.pageSize = post.pageSize ∧
      post'.freeBytes = post.freeBytes ∪ Set.Ico start stop := by
  have hnot : ∀ c, Disjoint (post.list c).bytes (Set.Ico start stop) := fun c =>
    Set.disjoint_left.mpr fun x hx hxs => absurd hxs.1 (not_le.mpr (h.below c x hx))
  obtain ⟨post', htrack, hps, hunc, hcan, hbytes⟩ :=
    trackBetween_spec h.canonical (fun _ => hlimit) (hnot c)
  refine ⟨post', htrack, ⟨hcan, hunc ▸ h.unclassified, ?_, ?_, ?_, ?_⟩, hps, ?_⟩
  · intro c₁ c₂ hne
    rw [hbytes, hbytes, Set.disjoint_left]
    rintro x (hx | ⟨hc, hx⟩) (hx' | ⟨hc', hx'⟩)
    · exact Set.disjoint_left.mp (h.classes c₁ c₂ hne) hx hx'
    · exact Set.disjoint_left.mp (hnot c₁) hx hx'
    · exact Set.disjoint_left.mp (hnot c₂) hx' hx
    · exact hne (hc.trans hc'.symm)
  · intro c'
    rw [hunc, hbytes, Set.disjoint_union_right]
    refine ⟨h.apart c', Set.disjoint_left.mpr fun x hx hx' => ?_⟩
    exact absurd hx'.2.1 (not_le.mpr (h.unclassified_below x hx))
  · intro c' x hx
    rw [hbytes] at hx
    rcases hx with hx | hx
    · exact (h.below c' x hx).trans_le hle
    · exact hx.2.2
  · intro x hx
    rw [hunc] at hx
    exact (h.unclassified_below x hx).trans_le hle
  · ext x
    simp only [PagedPostFree.freeBytes, hbytes, hunc, Set.mem_union, Set.mem_ofPred_eq, exists_or,
      exists_eq_left]
    tauto

lemma mem_freeBytes_of_union {x : ℕ}
    (hx : x ∈ FreeList.unionBytes [post.metadata, post.raw, post.dead, post.unclassified]) :
    x ∈ post.freeBytes := by
  simp only [FreeList.unionBytes, mem_cons, not_mem_nil, or_false, exists_eq_or_imp,
    exists_eq_left, Set.mem_ofPred_eq] at hx
  rcases hx with hx | hx | hx | hx
  · exact .inl ⟨.page .metadata, hx⟩
  · exact .inl ⟨.page .raw, hx⟩
  · exact .inl ⟨.dead, hx⟩
  · exact .inr hx

lemma takeRange (h : Tiled post eoa) {released : Extent} (hstop : released.stop = eoa) :
    ∃ metadata raw dead unclassified, post.metadata.takeRange released = .ok metadata ∧
      post.raw.takeRange released = .ok raw ∧ post.dead.takeRange released = .ok dead ∧
      post.unclassified.takeRange released = .ok unclassified ∧
      Tiled ⟨post.pageSize, metadata, raw, dead, unclassified⟩ released.start ∧
      (⟨post.pageSize, metadata, raw, dead, unclassified⟩ : PagedPostFree).freeBytes ⊆
        post.freeBytes := by
  obtain ⟨metadata, hm, hmcan, hmbytes⟩ :=
    FreeList.takeRange_spec (h.canonical (.page .metadata)) released
  obtain ⟨raw, hr, hrcan, hrbytes⟩ := FreeList.takeRange_spec (h.canonical (.page .raw)) released
  obtain ⟨dead, hd, hdcan, hdbytes⟩ := FreeList.takeRange_spec (h.canonical .dead) released
  obtain ⟨unclassified, hu, hucan, hubytes⟩ := FreeList.takeRange_spec h.unclassified released
  obtain ⟨post', hpost⟩ : ∃ post' : PagedPostFree,
    post' = ⟨post.pageSize, metadata, raw, dead, unclassified⟩ := ⟨_, rfl⟩
  have hlist : ∀ c, (post'.list c).Canonical ∧
      (post'.list c).bytes = (post.list c).bytes \ released.bytes := by
    rw [hpost]
    rintro (_ | _ | _)
    · exact ⟨hdcan, hdbytes⟩
    · exact ⟨hmcan, hmbytes⟩
    · exact ⟨hrcan, hrbytes⟩
  have hunc : post'.unclassified.bytes = post.unclassified.bytes \ released.bytes := by
    rw [hpost]
    exact hubytes
  have hsub : ∀ c, (post'.list c).bytes ⊆ (post.list c).bytes := fun c =>
    (hlist c).2.trans_subset Set.sdiff_subset
  have husub : post'.unclassified.bytes ⊆ post.unclassified.bytes := hunc.trans_subset Set.sdiff_subset
  -- what lies below the old end and outside the range lies below the range
  have hbelow : ∀ {x}, x < eoa → x ∉ released.bytes → x < released.start := by
    intro x hx hnot
    rw [Extent.mem_bytes] at hnot
    omega
  refine ⟨metadata, raw, dead, unclassified, hm, hr, hd, hu, ?_, ?_⟩
  · rw [← hpost]
    refine ⟨fun c => (hlist c).1, by rw [hpost]; exact hucan,
      fun c c' hne => (h.classes c c' hne).mono (hsub c) (hsub c'),
      fun c => (h.apart c).mono husub (hsub c), ?_, ?_⟩
    · intro c x hx
      rw [(hlist c).2] at hx
      exact hbelow (h.below c x hx.1) hx.2
    · intro x hx
      rw [hunc] at hx
      exact hbelow (h.unclassified_below x hx.1) hx.2
  · rw [← hpost]
    rintro x (⟨c, hx⟩ | hx)
    · exact .inl ⟨c, hsub c hx⟩
    · exact .inr (husub hx)

/-- The trailing run that is released is free, and what stays keeps to pages. -/
lemma releaseTrailing (h : Tiled post eoa) (hdvd : post.pageSize.get ∣ eoa)
    (hlimit : eoa < 2 ^ 64) (tailLen : ℕ) :
    ∃ eoa' post', post.releaseTrailing eoa tailLen = .ok (eoa', post') ∧
      post.pageSize.get ∣ eoa' ∧ eoa' ≤ eoa ∧ Tiled post' eoa' ∧
      Set.Ico eoa' eoa ⊆ post.freeBytes ∧ post'.freeBytes ⊆ post.freeBytes := by
  have hsame : ∃ eoa' post', (.ok (eoa, post) : Checked (ℕ × PagedPostFree)) = .ok (eoa', post') ∧
      post.pageSize.get ∣ eoa' ∧ eoa' ≤ eoa ∧ Tiled post' eoa' ∧
      Set.Ico eoa' eoa ⊆ post.freeBytes ∧ post'.freeBytes ⊆ post.freeBytes :=
    ⟨eoa, post, rfl, hdvd, le_rfl, h, by simp, subset_rfl⟩
  obtain ⟨-, hrun⟩ := FreeList.trailingRunStart_spec
    [post.metadata, post.raw, post.dead, post.unclassified] eoa
  unfold PagedPostFree.releaseTrailing
  simp only
  split
  · exact hsame
  rename_i cut hcut
  obtain ⟨-, hcutdvd, hcutle, -, -⟩ := checkedNextMultipleOf_spec hcut
  split_ifs with hcuteoa
  · exact hsame
  split
  · exact hsame
  rename_i keep hkeep
  split
  · exact hsame
  rename_i releaseMin hreleaseMin
  split_ifs with hmin
  · exact hsame
  split
  · exact hsame
  rename_i published hpublished
  obtain ⟨-, rfl⟩ := checkedAdd_eq_some.mp hpublished
  obtain ⟨reserve, -, hround⟩ := Option.bind_eq_some_iff.mp hkeep
  obtain ⟨-, hkeepdvd, -, -, -⟩ := checkedNextMultipleOf_spec hround
  obtain ⟨-, rfl⟩ := checkedMul_eq_some.mp hreleaseMin
  have hlong : keep * 2 ≤ eoa - cut := by
    rw [checkedSub, if_pos (by omega)] at hmin
    simpa using hmin
  have hlt : cut + keep < eoa := by omega
  obtain ⟨released, hreleased, hrstart, hrstop⟩ := Extent.exists_between hlt hlimit
  obtain ⟨metadata, raw, dead, unclassified, hm, hr, hd, hu, htiled, hsub⟩ :=
    h.takeRange hrstop
  rw [hrstart] at htiled
  refine ⟨cut + keep, _, by simp only [hreleased, expect_some, hm, hr, hd, hu, ok_bind],
    dvd_add hcutdvd hkeepdvd, hlt.le, htiled, ?_, hsub⟩
  rintro x ⟨hx, hxe⟩
  exact mem_freeBytes_of_union (hrun ⟨by omega, hxe⟩)

end PagedEdit.Tiled

namespace PagedEdit

lemma Committable.serves {paged paged' : PagedEdit} {eoa : ℕ} {extents : Returns}
    {ty : PageType} {a : Extent} (h : paged.Committable eoa extents)
    (hs : paged.Serves ty (some a) paged') :
    paged'.Committable eoa extents ∧ paged'.pageSize = paged.pageSize ∧
      paged'.freeBytes ⊆ paged.freeBytes ∧ Disjoint a.bytes paged'.freeBytes ∧
      a.bytes ⊆ paged.metadata.bytes ∪ paged.raw.bytes := by
  obtain ⟨hps, hdead, hunc, -, hpad⟩ := hs.same
  obtain ⟨hsep, -⟩ := h.separate.serves hs
  obtain ⟨hsub, hfrom, hgone⟩ := h.separate.serves_holds hs
  obtain ⟨v, -, hvsub, -, hvgiven, -⟩ := hs.pages
  rw [Option.toList_some, covered_singleton] at hfrom hgone hvgiven
  refine ⟨⟨⟨hsep, h.disjoint, ?_, ?_⟩, hps ▸ h.aligned, ?_, ?_, h.extents_below⟩, hps, ?_, ?_, ?_⟩
  · intro d hd c
    rw [Set.disjoint_left]
    intro x hx
    obtain ⟨c', hx⟩ := hsub c x hx
    exact Set.disjoint_left.mp (h.free d hd c') hx
  · rw [hunc]
    exact h.unclassified
  · intro c x hx
    obtain ⟨c', hx⟩ := hsub c x hx
    exact h.holds_below c' x hx
  · rw [hunc]
    exact h.unclassified_below
  · rintro x (⟨c, hx⟩ | hx)
    · exact .inl (hsub c x hx)
    · exact .inr (hunc ▸ hx)
  · rw [Set.disjoint_left]
    rintro x hxa (⟨c, hx⟩ | hx)
    · exact Set.disjoint_left.mp (hgone c) hx hxa
    · obtain ⟨t, hxt⟩ := hfrom x hxa
      exact Set.disjoint_left.mp (h.separate.apart (.page t)) (hunc ▸ hx) hxt
  · intro x hx
    rcases hvgiven hx with hx | hx
    · cases ty
      · exact .inl hx
      · exact .inr hx
    · have hx := hvsub hx
      cases ty
      · exact .inr hx
      · exact .inl hx

/-! ## Plans -/

/-- A planned tail has the requested length, takes nothing pending and nothing that stays free, was
free before or is appended, and lies in the published file. -/
structure Planned (paged : PagedEdit) (eoa : ℕ) (freed : Returns)
    (oldBlocks : List Extent) (capacity : ℕ) (appended : Bool) (tail : PagedTail) : Prop where
  len : tail.allocation.len = capacity
  freed_apart : ∀ d ∈ freed, Disjoint tail.allocation.bytes d.1.bytes
  oldBlocks_apart : ∀ e ∈ oldBlocks, Disjoint tail.allocation.bytes e.bytes
  unlisted : Disjoint tail.allocation.bytes tail.post.freeBytes
  mode : tail.appended = appended
  reused : appended = false → tail.allocation.bytes ⊆ paged.metadata.bytes ∪ paged.raw.bytes
  atEoa : appended = true → tail.allocation.start = eoa
  aligned : paged.pageSize.get ∣ tail.finalEoa
  inFile : tail.allocation.stop ≤ tail.finalEoa
  tiled : Tiled tail.post tail.finalEoa
  cut : Set.Ico tail.finalEoa eoa ⊆ paged.available freed oldBlocks

lemma mem_returned_of_freed {freed : Returns} {oldBlocks : List Extent}
    {d : Extent × FreeClass} (hd : d ∈ freed) : d ∈ returned freed oldBlocks :=
  mem_append_left _ hd

lemma mem_returned_of_block {freed : Returns} {oldBlocks : List Extent}
    {e : Extent} (he : e ∈ oldBlocks) : (e, .page .metadata) ∈ returned freed oldBlocks :=
  mem_append_right _ (mem_map.mpr ⟨e, he, rfl⟩)

lemma allocateRequest_serves {paged : PagedEdit} (h : paged.Separate)
    (request : ReservationRequest) :
    ∃ result paged', paged.allocateRequest request = .ok (result, paged') ∧
      paged.Serves request.pageType result paged' ∧
      ∀ a, result = some a → a.len = request.size := by
  have hd : ∀ t, Disjoint (paged.list t).bytes (paged.list t.other).bytes := fun t =>
    (h.classes (.page t) (.page t.other) (by simpa using PageType.ne_other t)).mono
      (list_subset_holds _ _) (list_subset_holds _ _)
  unfold allocateRequest
  split_ifs with hblock
  · exact allocateBlock_serves h.canonical hd request
  · exact allocate_serves h.canonical hd request.size request.pageType

section
variable {paged : PagedEdit} {eoa : ℕ} {freed : Returns} {oldBlocks : List Extent}

lemma disjoint_available {s : Set ℕ} (hfree : Disjoint s paged.freeBytes)
    (hret : ∀ d ∈ returned freed oldBlocks, Disjoint s d.1.bytes) :
    Disjoint s (paged.available freed oldBlocks) := by
  simp only [available, Set.disjoint_union_right, disjoint_covered_right, forall_mem_map]
  exact ⟨⟨hfree, fun d hd => hret d (mem_returned_of_freed hd)⟩,
    fun e he => hret _ (mem_returned_of_block he)⟩

variable (h : paged.Committable eoa (returned freed oldBlocks)) (hlimit : eoa < 2 ^ 64)
  (threshold : ℕ)
include h hlimit

/-- A tail from free space. It is no part of what the commit and the release of the trailing run
work on. -/
lemma planReusableTail_planned (request : ReservationRequest) :
    ∃ result, paged.planReusableTail threshold eoa freed oldBlocks request = .ok result ∧
      ∀ tail, result = .ok (some tail) →
        Planned paged eoa freed oldBlocks request.size false tail := by
  unfold planReusableTail
  cases checkPageBoundary paged.pageSize eoa with
  | error e => exact ⟨_, rfl, by simp⟩
  | ok _ =>
  cases checkTrailingReserve paged.pageSize request.size with
  | error e => exact ⟨_, rfl, by simp⟩
  | ok _ =>
  obtain ⟨result, paged', halloc, hserves, hlen⟩ := allocateRequest_serves h.separate request
  simp only [halloc, ok_bind]
  cases result with
  | none => exact ⟨_, rfl, by simp⟩
  | some a =>
  obtain ⟨h', hps, hsub, hgone, hfrom⟩ := h.serves hserves
  obtain ⟨s, post, hpost, hpostps, -, htiled, -, hfree, hgiven⟩ := postFree_published h' threshold
  have hdvd : post.pageSize.get ∣ s.publishedEoa := hpostps ▸ s.aligned
  obtain ⟨final, post', hrelease, hfdvd, hfle, hftiled, hfcut, hffree⟩ :=
    htiled.releaseTrailing hdvd (s.le_eoa.trans_lt hlimit) request.size
  simp only [hpost, ok_bind, hrelease]
  refine ⟨_, rfl, fun tail htail => ?_⟩
  cases htail
  have hret : ∀ d ∈ returned freed oldBlocks, Disjoint a.bytes d.1.bytes := by
    intro d hd
    rw [Set.disjoint_left]
    intro x hx
    rcases hfrom hx with hx | hx
    · exact Set.disjoint_left.mp (h.free d hd (.page .metadata)) (.inl hx)
    · exact Set.disjoint_left.mp (h.free d hd (.page .raw)) (.inl hx)
  have hapart := disjoint_available hgone hret
  have hcut : Set.Ico final eoa ⊆ paged'.available freed oldBlocks := by
    rintro x ⟨hx, hxe⟩
    by_cases hlt : x < s.publishedEoa
    · exact hfree (hfcut ⟨hx, hlt⟩)
    · exact hgiven ⟨not_lt.mp hlt, hxe⟩
  refine ⟨hlen a rfl, fun d hd => hret d (mem_returned_of_freed hd),
    fun e he => hret _ (mem_returned_of_block he), hapart.mono_right (hffree.trans hfree), rfl,
    fun _ => hfrom, by simp, ?_, ?_, hftiled,
    hcut.trans (Set.union_subset_union_left _ (Set.union_subset_union_left _ hsub))⟩
  · rw [hpostps, hps] at hfdvd
    exact hfdvd
  · -- the last byte of the tail was free before the call, and the commit lost it
    by_contra hgt
    have hpos := a.start_lt_stop
    have hmem : a.stop - 1 ∈ a.bytes := Extent.mem_bytes.mpr ⟨by omega, by omega⟩
    have hbelow : a.stop - 1 < eoa := by
      rcases hfrom hmem with hx | hx
      · exact h.holds_below (.page .metadata) _ (.inl hx)
      · exact h.holds_below (.page .raw) _ (.inl hx)
    refine Set.disjoint_left.mp hapart hmem (hcut ⟨?_, hbelow⟩)
    show final ≤ a.stop - 1
    have : ¬ a.stop ≤ final := hgt
    omega

/-- The sections of an append lie below the old end of allocation. -/
lemma planAppend_spec :
    ∃ result, paged.planAppend threshold eoa freed oldBlocks = .ok result ∧
      ∀ append, result = .ok append → append.eoa = eoa ∧ append.post.pageSize = paged.pageSize ∧
        Tiled append.post eoa := by
  unfold planAppend
  cases checkPageBoundary paged.pageSize eoa with
  | error e => exact ⟨_, rfl, by simp⟩
  | ok _ =>
  obtain ⟨s, post, hpost, hps, -, htiled, -⟩ := postFree_published h threshold
  obtain ⟨post', htrack, htiled', hps', -⟩ := htiled.trackBetween s.le_eoa hlimit (.page .raw)
  simp only [hpost, htrack, ok_bind]
  refine ⟨_, rfl, fun append happend => ?_⟩
  cases happend
  exact ⟨rfl, hps'.trans hps, htiled'⟩

omit hlimit in
/-- An appended tail starts at the old end of allocation, where nothing is free or pending. -/
lemma reserve_planned {append : PagedAppend} (heoa : append.eoa = eoa)
    (hps : append.post.pageSize = paged.pageSize) (htiled : Tiled append.post eoa) (capacity : ℕ) :
    ∃ result, append.reserve capacity = .ok result ∧ ∀ tail, result = .ok tail →
      Planned paged eoa freed oldBlocks capacity true tail := by
  unfold PagedAppend.reserve
  simp only
  cases checkTrailingReserve append.post.pageSize capacity with
  | error e => exact ⟨_, rfl, by simp⟩
  | ok _ =>
  by_cases hpos : 0 < capacity
  · simp only [dif_pos hpos]
    cases hplace : (ReservationRequest.new capacity hpos .metadata).placeAfter append.eoa none with
    | error e => exact ⟨_, rfl, by simp⟩
    | ok a =>
    obtain ⟨hstart, hlen⟩ := ReservationRequest.placeAfter_eq_ok hplace
    rw [ReservationRequest.startAfter_none, heoa] at hstart
    have hstart : a.start = eoa := (Except.ok.inj hstart).symm
    have hstop := a.start_lt_stop
    cases hfinal : checkedNextMultipleOf a.stop append.post.pageSize.get with
    | none => exact ⟨_, by simp only [hfinal]; rfl, by simp⟩
    | some final =>
    obtain ⟨-, hdvd, hle, -, hflimit⟩ := checkedNextMultipleOf_spec hfinal
    obtain ⟨post', htrack, htiled', -, hfree⟩ := (htiled.mono (by omega)).trackBetween hle
      (hflimit a.stop_lt_limit) (.page .metadata)
    simp only [hfinal, htrack, ok_bind]
    refine ⟨_, rfl, fun tail htail => ?_⟩
    cases htail
    have hafter : ∀ x ∈ a.bytes, eoa ≤ x := fun x hx => hstart ▸ (Extent.mem_bytes.mp hx).1
    have hret : ∀ d ∈ returned freed oldBlocks, Disjoint a.bytes d.1.bytes := by
      intro d hd
      rw [Set.disjoint_left]
      intro x hx hxd
      have h1 := hafter x hx
      have h2 := (Extent.mem_bytes.mp hxd).2
      have h3 := h.extents_below d hd
      omega
    refine ⟨hlen, fun d hd => hret d (mem_returned_of_freed hd),
      fun e he => hret _ (mem_returned_of_block he), ?_, rfl, by simp, fun _ => hstart, hps ▸ hdvd,
      hle, htiled', ?_⟩
    · show Disjoint a.bytes post'.freeBytes
      rw [hfree, Set.disjoint_left]
      rintro x hx ((⟨c, hxc⟩ | hxu) | hxt)
      · exact absurd (htiled.below c x hxc) (not_lt.mpr (hafter x hx))
      · exact absurd (htiled.unclassified_below x hxu) (not_lt.mpr (hafter x hx))
      · exact absurd hxt.1 (not_le.mpr (Extent.mem_bytes.mp hx).2)
    · rintro x ⟨hx, hxe⟩
      have hx : final ≤ x := hx
      omega
  · exact ⟨_, by rw [dif_neg hpos], by simp⟩

end

end PagedEdit

/-! ## The three planning calls -/

inductive TailCall where
  | tail (capacity : ℕ) (appended : Bool)
  | blockTail (capacity : ℕ) (capacity_pos : 0 < capacity)
  | append (capacity : ℕ)

namespace TailCall

def capacity : TailCall → ℕ
  | tail capacity _ | blockTail capacity _ | append capacity => capacity

def appended : TailCall → Bool
  | tail _ appended => appended
  | blockTail _ _ => false
  | append _ => true

def plan (space : SessionSpace) (eoa : ℕ) (freed : Returns)
    (oldBlocks : List Extent) : TailCall → Checked (Except FormatError (Option PagedTail))
  | tail capacity appended => space.planPagedTail eoa freed oldBlocks capacity appended
  | blockTail capacity capacity_pos =>
    space.planPagedBlockTail eoa freed oldBlocks capacity capacity_pos
  | append capacity => do
    let planned ← space.planPagedAppend eoa freed oldBlocks
    reserveAppended planned capacity

end TailCall

namespace PagedEdit

lemma planAppend_planned {paged : PagedEdit} {eoa : ℕ} {freed : Returns}
    {oldBlocks : List Extent} (h : paged.Committable eoa (returned freed oldBlocks))
    (hlimit : eoa < 2 ^ 64) (threshold capacity : ℕ) :
    ∃ result, (paged.planAppend threshold eoa freed oldBlocks >>= (reserveAppended · capacity)) =
        .ok result ∧
      ∀ tail, result = .ok (some tail) → Planned paged eoa freed oldBlocks capacity true tail := by
  obtain ⟨planned, hplan, hspec⟩ := planAppend_spec h hlimit threshold
  simp only [hplan, ok_bind]
  cases planned with
  | error e => exact ⟨.error e, rfl, by simp⟩
  | ok append =>
    obtain ⟨heoa, hps, htiled⟩ := hspec append rfl
    obtain ⟨result, hreserve, hplanned⟩ := reserve_planned h heoa hps htiled capacity
    refine ⟨result.map some, by simp only [reserveAppended, hreserve, ok_bind], fun tail htail => ?_⟩
    cases result with
    | error e => cases htail
    | ok tail' =>
      obtain rfl : tail' = tail := Option.some.inj (Except.ok.inj htail)
      exact hplanned tail' rfl

end PagedEdit

/-- A planned tail takes nothing that is pending and lies in the file that its commit publishes. -/
theorem TailCall.plan_planned (space : PagedSpace) (eoa : ℕ) (hlimit : eoa < 2 ^ 64)
    (freed : Returns) (oldBlocks : List Extent)
    (h : space.paged.Committable eoa (returned freed oldBlocks)) (call : TailCall) :
    ∃ result, call.plan (.paged space) eoa freed oldBlocks = .ok result ∧
      ∀ tail, result = .ok (some tail) →
        space.paged.Planned eoa freed oldBlocks call.capacity call.appended tail := by
  cases call with
  | tail capacity appended =>
    show ∃ result, space.paged.planTail space.threshold eoa freed oldBlocks capacity appended =
      .ok result ∧ _
    unfold PagedEdit.planTail
    cases checkPageBoundary space.paged.pageSize eoa with
    | error e => exact ⟨_, rfl, by simp⟩
    | ok _ =>
    cases checkTrailingReserve space.paged.pageSize capacity with
    | error e => exact ⟨_, rfl, by simp⟩
    | ok _ =>
    cases appended with
    | true => exact PagedEdit.planAppend_planned h hlimit space.threshold capacity
    | false =>
      by_cases hpos : 0 < capacity
      · simp only [Bool.false_eq_true, if_false, dif_pos hpos]
        exact PagedEdit.planReusableTail_planned h hlimit space.threshold
          (.new capacity hpos .metadata)
      · exact ⟨.ok none, by simp only [Bool.false_eq_true, if_false, dif_neg hpos], by simp⟩
  | blockTail capacity capacity_pos =>
    exact PagedEdit.planReusableTail_planned h hlimit space.threshold
      (ReservationRequest.new capacity capacity_pos .metadata).forBlock
  | append capacity => exact PagedEdit.planAppend_planned h hlimit space.threshold capacity

theorem TailCall.plan_planned_reused :
    ∃ tail, (TailCall.tail 256 false).plan (.paged ⟨{ PagedEdit.new ⟨512, by decide, by decide⟩ with
          metadata := ⟨[⟨1024, 700, by decide, by decide⟩], 700⟩ }, 4096⟩) 4096
        [(⟨2048, 2048, by decide, by decide⟩, .page .raw)] [] = .ok (.ok (some tail)) ∧
      tail.allocation.len = 256 ∧ tail.allocation.stop ≤ tail.finalEoa := by
  obtain ⟨result, hplan, hplanned⟩ := TailCall.plan_planned ⟨{ PagedEdit.new ⟨512, by decide,
    by decide⟩ with metadata := ⟨[⟨1024, 700, by decide, by decide⟩], 700⟩ }, 4096⟩ 4096 (by decide)
    [(⟨2048, 2048, by decide, by decide⟩, .page .raw)] []
    (PagedEdit.committable_single _ (by decide) (by decide) (by simp [returned])
      (by simp [returned, Extent.disjoint_iff, Extent.stop]) (by simp [returned, Extent.stop]))
    (.tail 256 false)
  have hsome : ((Except.ok result : Checked _).toOption.bind Except.toOption).join.isSome = true := by
    rw [← hplan]
    decide +kernel
  rcases result with e | _ | tail
  · cases hsome
  · cases hsome
  · exact ⟨tail, hplan, (hplanned tail rfl).len, (hplanned tail rfl).inFile⟩

end Hdf5Pure.Space
