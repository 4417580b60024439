import Hdf5Pure.Space.PagedEditTheorems
import Hdf5Pure.Space.PagedSessions

/-!
# The state a PAGE commit publishes

Exact accounting for `post_free`: which bytes each stage moves between the class lists. No stage
loses a byte except by dropping a completed page.
-/

namespace Hdf5Pure.Space

open List hiding Disjoint

open Checked PagedPostFree
open PagedSession (returned)

variable {page part : Extent} {x : ℕ} {freed : Returns} {oldBlocks : List Extent}

namespace PagedPostFree

/-- The state after the batch has been admitted and the completed pages have been offered again. -/
structure Reoffered (post : PagedPostFree) (threshold : ℕ)
    (extents taken dropped : Returns) (pages : List Extent)
    (kept more : Returns) (post' : PagedPostFree) : Prop where
  pageSize : post'.pageSize = post.pageSize
  unclassified : post'.unclassified = post.unclassified
  canonical : ∀ c, (post'.list c).Canonical
  split : extents.Perm (taken ++ dropped)
  ascending : AscendingExtents pages
  isPage : ∀ p ∈ pages, IsPage post.pageSize.get p
  complete : ∀ p ∈ pages, ∀ x ∈ p.bytes, ∃ c, x ∈ (post.list c).bytes ∪ classBytes c taken
  fragment : ∀ p ∈ pages, ∃ d ∈ taken, d.1.len < post.pageSize.get ∧
    (d.1.start ∈ p.bytes ∨ d.1.stop - 1 ∈ p.bytes)
  resplit : (pages.map (·, FreeClass.page .raw)).Perm (kept ++ more)
  bytes : ∀ c, (post'.list c).bytes =
    (((post.list c).bytes ∪ classBytes c taken) \ covered pages) ∪ classBytes c kept

def Redropped (post : PagedPostFree) (threshold : ℕ) (extents : Returns) (page : Extent) : Prop :=
  ∃ dropped mid pages more late, post.releaseBatch threshold extents = .ok (dropped, mid) ∧
    mid.pageSize.get < threshold ∧ mid.pagesCompletedByMerges extents dropped = .ok pages ∧
    mid.releasePages threshold pages = .ok (more, late) ∧ (page, .page .raw) ∈ more

variable {post : PagedPostFree} {threshold : ℕ} {extents : Returns}

lemma disjoint_admitted (hdisj : post.Apart)
    (hret : PageAdmission.Returnable post extents) {taken dropped : Returns}
    (hperm : extents.Perm (taken ++ dropped)) {c c' : FreeClass} (hne : c ≠ c') :
    Disjoint ((post.list c).bytes ∪ classBytes c taken)
      ((post.list c').bytes ∪ classBytes c' taken) := by
  have hpair := (hperm.pairwise_iff fun {_ _} h => h.symm).mp hret.disjoint
  exact PagedEdit.disjoint_union_classBytes hne (hdisj c c' hne)
    (pairwise_append.mp hpair).1 fun d hd =>
      hret.tracked d (hperm.symm.subset (mem_append_left _ hd))

/-- A commit gives back the tail of a state in which the completed pages have been offered again. -/
lemma releaseAll_reoffered (hcan : post.Canonical) (hdisj : post.Apart)
    (threshold eoa : ℕ) (hret : PageAdmission.Returnable post extents) :
    ∃ taken dropped pages kept more post',
      post.releaseAll threshold eoa extents = post'.giveBack eoa (dropped ++ more) ∧
      Reoffered post threshold extents taken dropped pages kept more post' ∧
      ∀ d ∈ more, post.Redropped threshold extents d.1 := by
  obtain ⟨dropped, mid, hbatch, hrel⟩ := releaseBatch_spec hcan threshold hret
  obtain ⟨taken, hperm, hbytes⟩ := hrel.split
  simp only [releaseAll, hbatch, ok_bind]
  by_cases hthreshold : mid.pageSize.get < threshold
  · rw [if_pos hthreshold]
    have hmid : mid.Apart := by
      intro c c' hne
      rw [hbytes, hbytes]
      exact disjoint_admitted hdisj hret hperm hne
    obtain ⟨pages, hpages, hasc, hispage, hcov, hfrag⟩ :=
      pagesCompletedByMerges_exact hrel.canonical hmid extents dropped
    obtain ⟨more, post', kept, hmore, hps, hunc, hcan', hresplit, hlists⟩ :=
      releasePages_exact hrel.canonical threshold hasc
    refine ⟨taken, dropped, pages, kept, more, post', by simp only [hpages, hmore, ok_bind],
      ⟨by rw [hps, hrel.pageSize], by rw [hunc, hrel.unclassified], hcan', hperm, hasc, ?_, ?_, ?_,
        hresplit, fun c => by rw [hlists, hbytes]⟩, ?_⟩
    · rw [← hrel.pageSize]
      exact hispage
    · intro p hp x hx
      obtain ⟨c, hxc⟩ := hcov p hp x hx
      exact ⟨c, hbytes c ▸ hxc⟩
    · intro p hp
      obtain ⟨d, hd, hnot, hlen, hends⟩ := hfrag p hp
      refine ⟨d, (mem_append.mp (hperm.subset hd)).resolve_right hnot, ?_, hends⟩
      rwa [← hrel.pageSize]
    · intro d hd
      refine ⟨dropped, mid, pages, more, post', hbatch, hthreshold, hpages, hmore, ?_⟩
      obtain ⟨p, -, rfl⟩ := mem_map.mp (hresplit.symm.subset (mem_append_right kept hd))
      exact hd
  · rw [if_neg hthreshold]
    refine ⟨taken, dropped, [], [], [], mid, by rw [append_nil], ⟨hrel.pageSize,
      hrel.unclassified, hrel.canonical, hperm, List.Pairwise.nil, by simp, by simp, by simp,
      by simp, fun c => ?_⟩, by simp⟩
    rw [hbytes]
    ext x
    simp [mem_classBytes]

/-- Pages are dropped again by a threshold above their size. -/
lemma Redropped.lt (hcan : post.Canonical) (hret : PageAdmission.Returnable post extents)
    (h : post.Redropped threshold extents page) : post.pageSize.get < threshold := by
  obtain ⟨dropped, mid, -, -, -, hbatch, hthreshold, -⟩ := h
  obtain ⟨dropped', mid', hbatch', hrel⟩ := releaseBatch_spec hcan threshold hret
  cases hbatch.symm.trans hbatch'
  rwa [hrel.pageSize] at hthreshold

end PagedPostFree

namespace PagedEdit

/-! ## What a commit starts from -/

/-- The session and the returns of a commit share no byte. -/
structure Returning (paged : PagedEdit) (extents : Returns) : Prop where
  separate : paged.Separate
  disjoint : extents.Pairwise fun a b => Disjoint a.1.bytes b.1.bytes
  free : ∀ d ∈ extents, ∀ c, Disjoint (paged.holds c) d.1.bytes
  unclassified : ∀ d ∈ extents, Disjoint paged.unclassified.bytes d.1.bytes

/-- All of it lies below a page-aligned end of allocation. -/
structure Committable (paged : PagedEdit) (eoa : ℕ) (extents : Returns) : Prop
    extends paged.Returning extents where
  aligned : paged.pageSize.get ∣ eoa
  holds_below : ∀ c, ∀ x ∈ paged.holds c, x < eoa
  unclassified_below : ∀ x ∈ paged.unclassified.bytes, x < eoa
  extents_below : ∀ d ∈ extents, d.1.stop ≤ eoa

def withPads (paged : PagedEdit) (metadata raw : FreeList) : PagedPostFree :=
  ⟨paged.pageSize, metadata, raw, paged.dead, paged.unclassified⟩

/-- A completed page that the commit's threshold drops again. -/
def Redropped (paged : PagedEdit) (threshold : ℕ) (extents : Returns) (page : Extent) : Prop :=
  ∃ metadata raw, withPadding paged.metadata paged.metaPad = .ok metadata ∧
    withPadding paged.raw paged.rawPad = .ok raw ∧
    (paged.withPads metadata raw).Redropped threshold extents page

variable {paged : PagedEdit} {extents : Returns}

lemma Separate.withPadding (h : paged.Separate) :
    ∃ metadata raw, withPadding paged.metadata paged.metaPad = .ok metadata ∧
      PagedEdit.withPadding paged.raw paged.rawPad = .ok raw ∧
      ∀ c, ((paged.withPads metadata raw).list c).Canonical ∧
        ((paged.withPads metadata raw).list c).bytes = paged.holds c := by
  obtain ⟨metadata, hm, hmcan, hmbytes⟩ :=
    withPadding_spec (h.canonical .metadata) (h.pads .metadata) (h.padFree .metadata)
  obtain ⟨raw, hr, hrcan, hrbytes⟩ :=
    withPadding_spec (h.canonical .raw) (h.pads .raw) (h.padFree .raw)
  exact ⟨metadata, raw, hm, hr,
    FreeClass.forall_iff.mpr ⟨⟨h.dead, rfl⟩, ⟨hmcan, hmbytes⟩, hrcan, hrbytes⟩⟩

/-- No unclassified byte is in a class or among the returns. -/
lemma Returning.unclassified_disjoint (h : paged.Returning extents) (c : FreeClass) :
    Disjoint paged.unclassified.bytes (paged.commitBytes extents c) := by
  unfold commitBytes
  rw [Set.disjoint_union_right]
  exact ⟨h.separate.apart c, disjoint_classBytes_right h.unclassified c⟩

/-! ## The stages of a commit -/

/-- How a commit admits its returns: `taken` and `dropped`, and the completed `pages` with those
`kept` and `more` that are dropped again. -/
structure Admissions (paged : PagedEdit) (threshold : ℕ) (extents : Returns) where
  taken : Returns
  dropped : Returns
  pages : List Extent
  kept : Returns
  more : Returns
  split : extents.Perm (taken ++ dropped)
  ascending : AscendingExtents pages
  isPage : ∀ p ∈ pages, IsPage paged.pageSize.get p
  complete : ∀ p ∈ pages, ∀ x ∈ p.bytes, ∃ c, x ∈ paged.holds c ∪ classBytes c taken
  fragment : ∀ p ∈ pages, ∃ d ∈ taken, d.1.len < paged.pageSize.get ∧
    (d.1.start ∈ p.bytes ∨ d.1.stop - 1 ∈ p.bytes)
  resplit : (pages.map (·, FreeClass.page .raw)).Perm (kept ++ more)
  redropped : ∀ d ∈ more, paged.Redropped threshold extents d.1

/-- A commit with its published end of allocation and the partial page below it that is tracked
again. -/
structure Published (paged : PagedEdit) (threshold eoa : ℕ) (extents : Returns)
    extends Admissions paged threshold extents where
  head : Option (Extent × FreeClass)
  publishedEoa : ℕ
  boundary : publishedEoa = eoa ∨
    paged.pageSize.get ∣ publishedEoa ∧ publishedEoa < eoa + paged.pageSize.get
  given : ∀ x, publishedEoa ≤ x → x < eoa → ∃ d ∈ dropped ++ more,
    paged.pageSize.get ≤ d.1.len ∧ publishedEoa < d.1.start + paged.pageSize.get ∧
      d.1.stop ≤ eoa ∧ x ∈ d.1.bytes
  head_dropped : ∀ part c, head = some (part, c) → ∃ e, (e, c) ∈ dropped ∧
    paged.pageSize.get ≤ e.len ∧ part.start = e.start ∧ part.stop = publishedEoa ∧
    publishedEoa < e.start + paged.pageSize.get

/-- A commit from a page-aligned end of allocation, which it can only lower. -/
structure Stages (paged : PagedEdit) (threshold eoa : ℕ) (extents : Returns)
    extends Published paged threshold eoa extents where
  aligned : paged.pageSize.get ∣ publishedEoa
  le_eoa : publishedEoa ≤ eoa

namespace Admissions

variable {paged : PagedEdit} {threshold : ℕ} {extents : Returns}

def admitted (a : Admissions paged threshold extents) (c : FreeClass) : Set ℕ :=
  paged.holds c ∪ classBytes c a.taken

def reoffered (a : Admissions paged threshold extents) (c : FreeClass) : Set ℕ :=
  (a.admitted c \ covered a.pages) ∪ classBytes c a.kept

variable {d : Extent × FreeClass}

variable {c : FreeClass}

section

variable (a : Admissions paged threshold extents)

include a

lemma mem_extents_of_taken (hd : d ∈ a.taken) : d ∈ extents :=
  a.split.symm.subset (mem_append_left _ hd)

lemma mem_extents_of_dropped (hd : d ∈ a.dropped) : d ∈ extents :=
  a.split.symm.subset (mem_append_right _ hd)

/-- The pages offered again are raw. -/
lemma mem_pages (hd : d ∈ a.kept ++ a.more) : d.1 ∈ a.pages ∧ d.2 = .page .raw := by
  obtain ⟨p, hp, rfl⟩ := mem_map.mp (a.resplit.symm.subset hd)
  exact ⟨hp, rfl⟩

lemma classBytes_kept_subset (c : FreeClass) : classBytes c a.kept ⊆ covered a.pages := by
  rintro x ⟨e, he, hx⟩
  exact bytes_subset_covered (a.mem_pages (mem_append_left _ he)).1 hx

lemma classBytes_kept_of_ne (hc : c ≠ .page .raw) : classBytes c a.kept = ∅ := by
  ext x
  simp only [mem_classBytes, Set.mem_empty_iff_false, iff_false, not_exists, not_and]
  intro e he
  exact absurd (a.mem_pages (mem_append_left _ he)).2 hc

lemma covered_pages_subset (hx : x ∈ covered a.pages) : ∃ c, x ∈ a.admitted c := by
  obtain ⟨p, hp, hxp⟩ := mem_covered.mp hx
  exact a.complete p hp x hxp

lemma exists_admitted_of_reoffered (hx : x ∈ a.reoffered c) : ∃ c', x ∈ a.admitted c' := by
  rcases hx with hx | hx
  · exact ⟨c, hx.1⟩
  · exact a.covered_pages_subset (a.classBytes_kept_subset c hx)

lemma admitted_subset (c : FreeClass) : a.admitted c ⊆ paged.commitBytes extents c := by
  apply Set.union_subset_union_right
  rintro x ⟨e, he, hx⟩
  exact ⟨e, a.mem_extents_of_taken he, hx⟩

end

section
variable (a : Admissions paged threshold extents) (h : paged.Returning extents)
include h

lemma pairwise_split : DisjointReturns (a.taken ++ a.dropped) :=
  (a.split.pairwise_iff fun {_ _} h => h.symm).mp h.disjoint

lemma admitted_disjoint {c' : FreeClass} (hne : c ≠ c') : Disjoint (a.admitted c) (a.admitted c') :=
  disjoint_union_classBytes hne (h.separate.classes c c' hne)
    (pairwise_append.mp (a.pairwise_split h)).1 fun d hd =>
      h.free d (a.mem_extents_of_taken hd)

lemma admitted_disjoint_dropped (hd : d ∈ a.dropped) (c : FreeClass) :
    Disjoint (a.admitted c) d.1.bytes := by
  unfold admitted
  rw [Set.disjoint_union_left]
  refine ⟨h.free d (a.mem_extents_of_dropped hd) c, (disjoint_classBytes_right ?_ c).symm⟩
  exact fun e he => ((pairwise_append.mp (a.pairwise_split h)).2.2 _ he _ hd).symm

lemma reoffered_disjoint {c' : FreeClass} (hne : c ≠ c') :
    Disjoint (a.reoffered c) (a.reoffered c') := by
  unfold reoffered
  rw [Set.disjoint_union_left, Set.disjoint_union_right, Set.disjoint_union_right]
  refine ⟨⟨(a.admitted_disjoint h hne).mono Set.sdiff_subset Set.sdiff_subset,
    Set.disjoint_sdiff_left.mono_right (a.classBytes_kept_subset c')⟩,
    Set.disjoint_sdiff_right.mono_left (a.classBytes_kept_subset c), ?_⟩
  by_cases hc : c = .page .raw
  · rw [a.classBytes_kept_of_ne fun hc' => hne (hc.trans hc'.symm)]
    exact Set.disjoint_empty _
  · rw [a.classBytes_kept_of_ne hc]
    exact Set.empty_disjoint _

/-- What is dropped is tracked nowhere. -/
lemma reoffered_disjoint_dropped (hd : d ∈ a.dropped ++ a.more) (c : FreeClass) :
    Disjoint (a.reoffered c) d.1.bytes := by
  rw [Set.disjoint_left]
  intro x hx hxd
  rcases mem_append.mp hd with hd | hd
  · obtain ⟨c', hxc⟩ := a.exists_admitted_of_reoffered hx
    exact Set.disjoint_left.mp (a.admitted_disjoint_dropped h hd c') hxc hxd
  · have hpage := bytes_subset_covered (a.mem_pages (mem_append_right _ hd)).1 hxd
    rcases hx with hx | ⟨e, he, hx⟩
    · exact hx.2 hpage
    · have hpages : DisjointReturns (a.kept ++ a.more) :=
        (a.resplit.pairwise_iff fun {_ _} h => h.symm).mp (pairwise_map.mpr
          (a.ascending.imp fun hab => Extent.disjoint_iff.mpr (.inl hab)))
      exact Set.disjoint_left.mp ((pairwise_append.mp hpages).2.2 _ he _ hd) hx hxd

end

end Admissions

variable {post : PagedPostFree}

namespace Published

variable {paged : PagedEdit} {threshold eoa : ℕ} {extents : Returns}

/-- The bytes of a class once the tail has been given back. -/
def tracked (s : Published paged threshold eoa extents) (c : FreeClass) : Set ℕ :=
  s.reoffered c ∪ classBytes c s.head.toList

/-- The state that the commit publishes. -/
structure Publishes (s : Published paged threshold eoa extents) (post : PagedPostFree) : Prop where
  pageSize : post.pageSize = paged.pageSize
  unclassified : post.unclassified = paged.unclassified
  canonical : post.Canonical
  bytes : ∀ c, (post.list c).bytes = promotedBytes paged.pageSize.get s.tracked c

variable {c : FreeClass}

section

variable (s : Published paged threshold eoa extents)

include s

/-- The partial page that is tracked again lies in a dropped extent of its class, below the
published end. -/
lemma head_spec (hhead : (part, c) ∈ s.head.toList) :
    part.stop = s.publishedEoa ∧ ∃ e, (e, c) ∈ s.dropped ∧ part.bytes ⊆ e.bytes := by
  obtain ⟨e, he, hlen, hstart, hstop, hlt⟩ := s.head_dropped part c (Option.mem_toList.mp hhead)
  have hestop := e.stop_eq
  refine ⟨hstop, e, he, fun x hx => ?_⟩
  rw [Extent.mem_bytes] at hx ⊢
  omega

/-- A class tracks its own bytes and kept pages. -/
lemma tracked_cases (hx : x ∈ s.tracked c) :
    x ∈ paged.commitBytes extents c ∨ x ∈ classBytes c s.kept := by
  rcases hx with (hx | hx) | ⟨part, hpart, hx⟩
  · exact .inl (s.admitted_subset c hx.1)
  · exact .inr hx
  · obtain ⟨-, e, he, hsub⟩ := s.head_spec hpart
    exact .inl (.inr ⟨e, s.mem_extents_of_dropped he, hsub hx⟩)

lemma tracked_origin (hx : x ∈ s.tracked c) : ∃ c', x ∈ paged.commitBytes extents c' := by
  rcases s.tracked_cases hx with hx | hx
  · exact ⟨c, hx⟩
  · obtain ⟨c', hx⟩ := s.covered_pages_subset (s.classBytes_kept_subset c hx)
    exact ⟨c', s.admitted_subset c' hx⟩

/-- A byte that the session holds stays tracked unless it lies in a page that is dropped again. -/
lemma tracked_of_holds (hx : x ∈ paged.holds c) :
    (∃ c', x ∈ s.tracked c') ∨ ∃ d ∈ s.more, x ∈ d.1.bytes := by
  by_cases hpage : x ∈ covered s.pages
  · obtain ⟨p, hp, hxp⟩ := mem_covered.mp hpage
    have hmem : (p, FreeClass.page .raw) ∈ s.kept ++ s.more :=
      s.resplit.subset (mem_map.mpr ⟨p, hp, rfl⟩)
    rcases mem_append.mp hmem with hk | hm
    · exact .inl ⟨.page .raw, .inl (.inr ⟨p, hk, hxp⟩)⟩
    · exact .inr ⟨_, hm, hxp⟩
  · exact .inl ⟨c, .inl (.inl ⟨.inl hx, hpage⟩)⟩

/-- The bytes given back come from the session's classes or from the returns. -/
lemma given_origin (hx : s.publishedEoa ≤ x) (hxe : x < eoa) :
    ∃ c, x ∈ paged.commitBytes extents c := by
  obtain ⟨d, hd, -, -, -, hxd⟩ := s.given x hx hxe
  rcases mem_append.mp hd with hd | hd
  · exact ⟨d.2, .inr ⟨d.1, s.mem_extents_of_dropped hd, hxd⟩⟩
  · obtain ⟨c, hxc⟩ := s.covered_pages_subset
      (bytes_subset_covered (s.mem_pages (mem_append_right _ hd)).1 hxd)
    exact ⟨c, s.admitted_subset c hxc⟩

end

section
variable (s : Published paged threshold eoa extents) (h : paged.Returning extents)
include h

lemma head_disjoint (hhead : (part, c) ∈ s.head.toList) (c' : FreeClass) :
    Disjoint (s.reoffered c') part.bytes := by
  obtain ⟨-, e, he, hsub⟩ := s.head_spec hhead
  exact (s.reoffered_disjoint_dropped h (mem_append_left _ he) c').mono_right hsub

lemma tracked_disjoint {c' : FreeClass} (hne : c ≠ c') : Disjoint (s.tracked c) (s.tracked c') := by
  rw [Set.disjoint_left]
  rintro x (hx | ⟨e, he, hx⟩) (hx' | ⟨e', he', hx'⟩)
  · exact Set.disjoint_left.mp (s.reoffered_disjoint h hne) hx hx'
  · exact Set.disjoint_left.mp (s.head_disjoint h he' c) hx hx'
  · exact Set.disjoint_left.mp (s.head_disjoint h he c') hx' hx
  · -- there is only one such page
    have heq := (Option.mem_toList.mp he).symm.trans (Option.mem_toList.mp he')
    exact hne (Prod.mk.inj (Option.some.inj heq)).2

end

section

variable (s : Published paged threshold eoa extents)

include s

lemma tracked_disjoint_given (h : paged.Returning extents) (c : FreeClass) :
    Disjoint (s.tracked c) (Set.Ico s.publishedEoa eoa) := by
  rw [Set.disjoint_left]
  rintro x hx ⟨hle, hxe⟩
  obtain ⟨d, hd, -, -, -, hxd⟩ := s.given x hle hxe
  rcases hx with hx | ⟨part, hpart, hx⟩
  · exact Set.disjoint_left.mp (s.reoffered_disjoint_dropped h hd c) hx hxd
  · have hlt := (Extent.mem_bytes.mp hx).2
    rw [(s.head_spec hpart).1] at hlt
    omega

lemma published_disjoint (h : paged.Returning extents) {c' : FreeClass} (hne : c ≠ c') :
    Disjoint (promotedBytes paged.pageSize.get s.tracked c)
      (promotedBytes paged.pageSize.get s.tracked c') :=
  promotedBytes_disjoint (fun _ _ => s.tracked_disjoint h) hne

lemma published_origin (hx : x ∈ promotedBytes paged.pageSize.get s.tracked c) :
    ∃ c', x ∈ paged.commitBytes extents c' := by
  obtain ⟨c', hx⟩ := exists_mem_promotedBytes.mp ⟨c, hx⟩
  exact s.tracked_origin hx

lemma tracks (h : paged.Returning extents) (hpost : s.Publishes post) :
    post.Tracked (paged.commitBytes extents) := by
  have hbytes := hpost.bytes
  refine ⟨hpost.canonical, ?_, ?_, ?_, ?_⟩
  · intro c c' hne
    rw [hbytes, hbytes]
    exact s.published_disjoint h hne
  · intro c hc x hx
    rw [hbytes] at hx
    rcases hx with hx | ⟨hc', -⟩
    · refine (s.tracked_cases hx.1).resolve_right fun hk => ?_
      rwa [s.classBytes_kept_of_ne hc] at hk
    · exact absurd hc' hc
  · -- a kept page is a whole free page, as are those that are promoted
    obtain ⟨pages, hpages⟩ : ∃ pages, pages =
      pagesWithin paged.pageSize.get {x | ∃ c, x ∈ s.tracked c} := ⟨_, rfl⟩
    have hraw : ∀ y, y ∈ post.raw.bytes ↔
        y ∈ promotedBytes paged.pageSize.get s.tracked (.page .raw) := fun y => by
      rw [← hbytes]
      rfl
    intro x hx
    have hwhole : x ∈ pages → ∀ y, y / post.pageSize.get = x / post.pageSize.get →
        y ∈ post.raw.bytes := by
      intro hxp y hy
      rw [hraw]
      rw [hpost.pageSize] at hy
      rw [hpages] at hxp
      exact .inr ⟨rfl, wholePages_pagesWithin _ _ x hxp y hy⟩
    rcases (hraw x).mp hx with hx | ⟨-, hx⟩
    · rcases s.tracked_cases hx.1 with hown | ⟨p, hp, hxp⟩
      · exact .inl hown
      · refine .inr (hwhole (hpages ▸ fun y hy => ?_))
        have hpage := s.isPage p (s.mem_pages (mem_append_left _ hp)).1
        exact ⟨.page .raw, .inl (.inr ⟨p, hp, hpage.wholePages x hxp y hy⟩)⟩
    · exact .inr (hwhole (hpages ▸ hx))
  · intro c x hx
    rw [hbytes] at hx
    exact s.published_origin hx

lemma tracked_below (h : paged.Committable eoa extents) (hx : x ∈ s.tracked c) :
    x < s.publishedEoa := by
  have hxe : x < eoa := by
    obtain ⟨c', hx | ⟨e, he, hx⟩⟩ := s.tracked_origin hx
    · exact h.holds_below c' x hx
    · exact (Extent.mem_bytes.mp hx).2.trans_le (h.extents_below _ he)
  by_contra hle
  exact Set.disjoint_left.mp (s.tracked_disjoint_given h.toReturning c) hx ⟨not_lt.mp hle, hxe⟩

end

end Published

lemma bytes_of_tracked {post' : PagedPostFree} {d : Extent × FreeClass}
    (h : Released post [d] [] post') (c : FreeClass) :
    (post'.list c).bytes = (post.list c).bytes ∪ classBytes c [d] := by
  obtain ⟨taken, hperm, hbytes⟩ := h.split
  rw [append_nil] at hperm
  rw [hbytes, singleton_perm.mp hperm]

/-- Giving back the tail ends the stages. -/
lemma Admissions.giveBack {threshold : ℕ} (a : Admissions paged threshold extents)
    (h : paged.Returning extents) (eoa : ℕ) {late : PagedPostFree}
    (hps : late.pageSize = paged.pageSize) (hcan : late.Canonical)
    (hbytes : ∀ c, (late.list c).bytes = a.reoffered c) :
    ∃ (s : Published paged threshold eoa extents) (post : PagedPostFree),
      late.giveBack eoa (a.dropped ++ a.more) = .ok (s.publishedEoa, post) ∧
      post.pageSize = paged.pageSize ∧ post.unclassified = late.unclassified ∧
      post.Canonical ∧ ∀ c, (post.list c).bytes = s.tracked c := by
  have hclear : ∀ d ∈ a.dropped ++ a.more, ∀ c, Disjoint (late.list c).bytes d.1.bytes :=
    fun d hd c => hbytes c ▸ a.reoffered_disjoint_dropped h hd c
  obtain ⟨eoa', post, hgive, hfreed, hboundary, hhead⟩ := giveBack_exact hcan eoa hclear
  rw [hps] at hfreed hboundary hhead
  replace hboundary : eoa' = eoa ∨ paged.pageSize.get ∣ eoa' ∧ eoa' < eoa + paged.pageSize.get :=
    hboundary.imp And.left fun ⟨_, hle, hdvd, _, hlt⟩ => ⟨hdvd, by omega⟩
  rcases hhead with rfl | ⟨e, c, part, he, hlen, hdvd, hstart, hstop, hlt, hrel⟩
  · refine ⟨⟨a, none, eoa', hboundary, hfreed, by simp⟩, post, hgive, hps, rfl, hcan, fun c => ?_⟩
    rw [hbytes]
    ext x
    simp [Published.tracked, mem_classBytes]
  · -- the partial page does not start on a boundary, so that it is no completed page
    have hdropped : (e, c) ∈ a.dropped := by
      refine (mem_append.mp he).resolve_right fun hm => ?_
      have hpage := a.isPage e (a.mem_pages (mem_append_right _ hm)).1
      have hle := Nat.le_of_lt_add_of_dvd hlt hdvd hpage.1
      have hpos := part.start_lt_stop
      omega
    refine ⟨⟨a, some (part, c), eoa', hboundary, hfreed, ?_⟩, post, hgive, ?_,
      hrel.unclassified, hrel.canonical, fun c' => ?_⟩
    · intro part' c' heq
      cases heq
      exact ⟨e, hdropped, hlen, hstart, hstop, hlt⟩
    · rw [hrel.pageSize, hps]
    · rw [bytes_of_tracked hrel, hbytes]
      rfl

/-- The starting state of a commit and its returns meet the conditions of the admission. -/
lemma Returning.returnable (h : paged.Returning extents)
    (hbytes : ∀ c, (post.list c).bytes = paged.holds c) :
    post.Apart ∧ PageAdmission.Returnable post extents := by
  refine ⟨fun c c' hne => ?_, h.disjoint, fun d hd c => hbytes c ▸ h.free d hd c⟩
  rw [hbytes, hbytes]
  exact h.separate.classes c c' hne

/-- A commit succeeds and goes through the stages. -/
lemma exists_published (h : paged.Returning (returned freed oldBlocks)) (threshold eoa : ℕ) :
    ∃ (s : Published paged threshold eoa (returned freed oldBlocks)) (post : PagedPostFree),
      paged.postFree threshold eoa freed oldBlocks = .ok (post, s.publishedEoa) ∧
      s.Publishes post := by
  obtain ⟨metadata, raw, hm, hr, hlists⟩ := h.separate.withPadding
  obtain ⟨start, hstart⟩ : ∃ start, start = paged.withPads metadata raw := ⟨_, rfl⟩
  rw [← hstart] at hlists
  have hps : start.pageSize = paged.pageSize := by rw [hstart]; rfl
  obtain ⟨hdisj, hret⟩ := h.returnable fun c => (hlists c).2
  obtain ⟨taken, dropped, pages, kept, more, late, hall, hre, hmore⟩ :=
    releaseAll_reoffered (fun c => (hlists c).1) hdisj threshold eoa hret
  have hps' : late.pageSize = paged.pageSize := by rw [hre.pageSize, hps]
  obtain ⟨a, ha⟩ : ∃ a : Admissions paged threshold (returned freed oldBlocks),
      a.taken = taken ∧ a.dropped = dropped ∧ a.pages = pages ∧ a.kept = kept ∧ a.more = more := by
    refine ⟨⟨taken, dropped, pages, kept, more, hre.split, hre.ascending, hps ▸ hre.isPage, ?_,
      hps ▸ hre.fragment, hre.resplit, ?_⟩, rfl, rfl, rfl, rfl, rfl⟩
    · intro p hp x hx
      obtain ⟨c, hxc⟩ := hre.complete p hp x hx
      rw [(hlists c).2] at hxc
      exact ⟨c, hxc⟩
    · intro d hd
      exact ⟨metadata, raw, hm, hr, hstart ▸ hmore d hd⟩
  obtain ⟨rfl, rfl, rfl, rfl, rfl⟩ := ha
  have hlate : ∀ c, (late.list c).bytes = a.reoffered c := by
    intro c
    rw [hre.bytes, (hlists c).2]
    rfl
  obtain ⟨s, post₁, hgive, hps₁, hunc₁, hcan₁, hbytes₁⟩ := a.giveBack h eoa hps' hre.canonical hlate
  have hdisj₁ : post₁.Apart := by
    intro c c' hne
    rw [hbytes₁, hbytes₁]
    exact s.tracked_disjoint h hne
  obtain ⟨post, hpromote, hps₂, hunc₂, hcan₂, hbytes₂⟩ := promoteWholeFreePages_exact hcan₁ hdisj₁
  refine ⟨s, post, ?_, by rw [hps₂, hps₁], by rw [hunc₂, hunc₁, hre.unclassified, hstart]; rfl,
    hcan₂, fun c => ?_⟩
  · rw [hstart, hgive] at hall
    simp only [withPads, returned] at hall
    simp only [postFree, hm, hr, hall, ok_bind, hpromote]
  · rw [hbytes₂, hps₁]
    simp only [hbytes₁]

lemma postFree_stages {eoa : ℕ} (h : paged.Returning (returned freed oldBlocks))
    (heoa : paged.pageSize.get ∣ eoa) (threshold : ℕ) :
    ∃ (s : Stages paged threshold eoa (returned freed oldBlocks)) (post : PagedPostFree),
      paged.postFree threshold eoa freed oldBlocks = .ok (post, s.publishedEoa) ∧
      s.Publishes post := by
  obtain ⟨s, post, hpost⟩ := exists_published h threshold eoa
  have haligned : paged.pageSize.get ∣ s.publishedEoa ∧ s.publishedEoa ≤ eoa := by
    rcases s.boundary with heq | ⟨hdvd, hlt⟩
    · rw [heq]
      exact ⟨heoa, le_rfl⟩
    · exact ⟨hdvd, Nat.le_of_lt_add_of_dvd hlt hdvd heoa⟩
  exact ⟨⟨s, haligned.1, haligned.2⟩, post, hpost⟩

/-- A commit keeps every class to its bytes, except for whole pages that become raw. The end of
allocation moves to a page boundary, over freed bytes that are tracked nowhere. -/
lemma postFree_spec (h : paged.Apart) (threshold eoa : ℕ)
    (hdisj : DisjointReturns (returned freed oldBlocks))
    (hfree : ∀ d ∈ returned freed oldBlocks, ∀ c, Disjoint (paged.holds c) d.1.bytes) :
    ∃ post eoa', paged.postFree threshold eoa freed oldBlocks = .ok (post, eoa') ∧
      post.Tracked (paged.commitBytes (returned freed oldBlocks)) ∧
      post.pageSize = paged.pageSize ∧ post.unclassified = paged.unclassified ∧
      (eoa' = eoa ∨ paged.pageSize.get ∣ eoa') ∧
      ∀ x, eoa' ≤ x → x < eoa →
        (∃ c, x ∈ paged.commitBytes (returned freed oldBlocks) c) ∧
        ∀ c, x ∉ (post.list c).bytes := by
  have hret : paged.Returning (returned freed oldBlocks) :=
    ⟨h.separate, hdisj, hfree, fun d _ => by simp [h.unclassified]⟩
  obtain ⟨s, post, hpost, hpub⟩ := exists_published hret threshold eoa
  refine ⟨post, s.publishedEoa, hpost, s.tracks hret hpub, hpub.pageSize, hpub.unclassified,
    s.boundary.imp id And.left, fun x hx hxe => ⟨s.given_origin hx hxe, fun c hxc => ?_⟩⟩
  rw [hpub.bytes] at hxc
  obtain ⟨c', hxc⟩ := exists_mem_promotedBytes.mp ⟨c, hxc⟩
  exact Set.disjoint_left.mp (s.tracked_disjoint_given hret c') hxc ⟨hx, hxe⟩

/-- The space a commit tracks lies apart, below its end of allocation. -/
structure Tiled (post : PagedPostFree) (eoa : ℕ) : Prop where
  canonical : ∀ c, (post.list c).Canonical
  unclassified : post.unclassified.Canonical
  classes : ∀ c c', c ≠ c' → Disjoint (post.list c).bytes (post.list c').bytes
  apart : ∀ c, Disjoint post.unclassified.bytes (post.list c).bytes
  below : ∀ c, ∀ x ∈ (post.list c).bytes, x < eoa
  unclassified_below : ∀ x ∈ post.unclassified.bytes, x < eoa

def freeBytes (paged : PagedEdit) : Set ℕ :=
  {x | (∃ c, x ∈ paged.holds c) ∨ x ∈ paged.unclassified.bytes}

end PagedEdit

def PagedPostFree.freeBytes (post : PagedPostFree) : Set ℕ :=
  {x | (∃ c, x ∈ (post.list c).bytes) ∨ x ∈ post.unclassified.bytes}

namespace PagedEdit

/-- The bytes that a commit may hand on: those that the session has free and those it returns. -/
def available (paged : PagedEdit) (freed : Returns) (oldBlocks : List Extent) : Set ℕ :=
  paged.freeBytes ∪ covered (freed.map Prod.fst) ∪ covered oldBlocks

lemma commitBytes_subset_available {paged : PagedEdit} {c : FreeClass}
    (hx : x ∈ paged.commitBytes (returned freed oldBlocks) c) :
    x ∈ paged.available freed oldBlocks := by
  rcases hx with hx | ⟨e, he, hx⟩
  · exact .inl (.inl (.inl ⟨c, hx⟩))
  · rcases mem_append.mp he with he | he
    · exact .inl (.inr (mem_covered.mpr ⟨e, mem_map.mpr ⟨_, he, rfl⟩, hx⟩))
    · obtain ⟨b, hb, heq⟩ := mem_map.mp he
      exact .inr (mem_covered.mpr ⟨e, (Prod.mk.inj heq).1 ▸ hb, hx⟩)

section
variable {paged : PagedEdit} {threshold eoa : ℕ} {extents : Returns}

lemma Redropped.lt (h : paged.Returning extents)
    (hpage : paged.Redropped threshold extents page) : paged.pageSize.get < threshold := by
  obtain ⟨metadata, raw, hm, hr, hdrop⟩ := hpage
  obtain ⟨metadata', raw', hm', hr', hlists⟩ := h.separate.withPadding
  cases hm.symm.trans hm'
  cases hr.symm.trans hr'
  have hret := (h.returnable fun c => (hlists c).2).2
  exact PagedPostFree.Redropped.lt (fun c => (hlists c).1) hret hdrop

/-- The published state is clear of the unclassified space, below the published end. -/
lemma Stages.tiled (s : Stages paged threshold eoa extents) (h : paged.Committable eoa extents)
    {post : PagedPostFree} (hpost : s.Publishes post) : Tiled post s.publishedEoa := by
  obtain ⟨-, hunc, hcan, hbytes⟩ := hpost
  refine ⟨hcan, hunc ▸ h.separate.unclassified, ?_, ?_, ?_, ?_⟩
  · intro c c' hne
    rw [hbytes, hbytes]
    exact s.published_disjoint h.toReturning hne
  · intro c
    rw [hunc, hbytes, Set.disjoint_right]
    intro x hx
    obtain ⟨c', hx⟩ := s.published_origin hx
    exact Set.disjoint_right.mp (h.unclassified_disjoint c') hx
  · intro c x hx
    rw [hbytes] at hx
    obtain ⟨c', hx⟩ := exists_mem_promotedBytes.mp ⟨c, hx⟩
    exact s.tracked_below h hx
  · intro x hx
    rw [hunc] at hx
    by_contra hle
    obtain ⟨c, hxc⟩ := s.given_origin (not_lt.mp hle) (h.unclassified_below x hx)
    exact Set.disjoint_left.mp (h.unclassified_disjoint c) hx hxc

end

lemma committable_single (pageSize : FileSpacePageSize) {free : Extent} {eoa : ℕ}
    {extents : Returns} (haligned : pageSize.get ∣ eoa) (hstop : free.stop ≤ eoa)
    (hdisj : DisjointReturns extents) (hfree : ∀ d ∈ extents, Disjoint free.bytes d.1.bytes)
    (hbelow : ∀ d ∈ extents, d.1.stop ≤ eoa) :
    ({ new pageSize with metadata := ⟨[free], free.len⟩ } : PagedEdit).Committable eoa extents := by
  obtain ⟨paged, hpaged⟩ : ∃ paged, paged =
    ({ new pageSize with metadata := ⟨[free], free.len⟩ } : PagedEdit) := ⟨_, rfl⟩
  have hmeta : paged.holds (.page .metadata) = free.bytes := by
    rw [hpaged]
    simp [holds, list, pad, new, FreeList.bytes]
  have hrest : ∀ c, c ≠ .page .metadata → paged.holds c = ∅ := by
    rw [hpaged]
    rintro (_ | _ | _) hc
    · exact FreeList.bytes_new
    · exact absurd rfl hc
    · simp [holds, list, pad, new]
  have hholds : ∀ c, paged.holds c ⊆ free.bytes := by
    intro c
    by_cases hc : c = .page .metadata
    · rw [hc, hmeta]
    · rw [hrest c hc]
      exact Set.empty_subset _
  have hunc : paged.unclassified = .new := by rw [hpaged]; rfl
  have hpad : ∀ ty, paged.pad ty = [] := by rw [hpaged]; rintro (_ | _) <;> rfl
  rw [← hpaged]
  refine ⟨⟨⟨?_, ?_, hunc ▸ FreeList.canonical_new, fun ty => by simp [hpad],
    fun ty => by simp [hpad], ?_, fun c => by simp [hunc]⟩, hdisj,
    fun d hd c => (hfree d hd).mono_left (hholds c), by simp [hunc]⟩, by rw [hpaged]; exact haligned,
    ?_, by simp [hunc], hbelow⟩
  · rw [hpaged]
    rintro (_ | _)
    · exact ⟨IntervalLists.separated_singleton, rfl⟩
    · exact FreeList.canonical_new
  · rw [hpaged]
    exact FreeList.canonical_new
  · intro c c' hne
    by_cases hc : c = .page .metadata
    · rw [hrest c' fun hc' => hne (hc.trans hc'.symm)]
      exact Set.disjoint_empty _
    · rw [hrest c hc]
      exact Set.empty_disjoint _
  · intro c x hx
    exact (Extent.mem_bytes.mp (hholds c hx)).2.trans_le hstop

/-- The published state in terms of the free bytes before it. -/
lemma postFree_published {paged : PagedEdit} {eoa : ℕ}
    (h : paged.Committable eoa (returned freed oldBlocks)) (threshold : ℕ) :
    ∃ (s : Stages paged threshold eoa (returned freed oldBlocks)) (post : PagedPostFree),
      paged.postFree threshold eoa freed oldBlocks = .ok (post, s.publishedEoa) ∧
      post.pageSize = paged.pageSize ∧ post.unclassified = paged.unclassified ∧
      Tiled post s.publishedEoa ∧
      (∀ x, (∃ c, x ∈ (post.list c).bytes) ↔ ∃ c, x ∈ s.tracked c) ∧
      post.freeBytes ⊆ paged.available freed oldBlocks ∧
      Set.Ico s.publishedEoa eoa ⊆ paged.available freed oldBlocks := by
  obtain ⟨s, post, hpost, hpub⟩ := postFree_stages h.toReturning h.aligned threshold
  have hunc := hpub.unclassified
  have hmem : ∀ x, (∃ c, x ∈ (post.list c).bytes) ↔ ∃ c, x ∈ s.tracked c := by
    intro x
    simp only [hpub.bytes]
    exact exists_mem_promotedBytes
  refine ⟨s, post, hpost, hpub.pageSize, hunc, s.tiled h hpub, hmem, ?_, ?_⟩
  · rintro x (hx | hx)
    · obtain ⟨c, hx⟩ := (hmem x).mp hx
      obtain ⟨c, hx⟩ := s.tracked_origin hx
      exact commitBytes_subset_available hx
    · exact .inl (.inl (.inr (hunc ▸ hx)))
  · rintro x ⟨hx, hxe⟩
    obtain ⟨c, hx⟩ := s.given_origin hx hxe
    exact commitBytes_subset_available hx

/-- A commit conserves bytes: it tracks what the session had free, except for completed pages that
the threshold drops again, nothing but that and the returns, and it lowers the end of allocation
over such bytes only. -/
theorem postFree_conserves (paged : PagedEdit) (threshold eoa : ℕ)
    (freed : Returns) (oldBlocks : List Extent)
    (h : paged.Committable eoa (returned freed oldBlocks)) :
    ∃ post eoa', paged.postFree threshold eoa freed oldBlocks = .ok (post, eoa') ∧
      paged.pageSize.get ∣ eoa' ∧ eoa' ≤ eoa ∧ Tiled post eoa' ∧
      (∀ x ∈ paged.freeBytes, x ∈ post.freeBytes ∨
        ∃ page, paged.Redropped threshold (returned freed oldBlocks) page ∧
          IsPage paged.pageSize.get page ∧ page.len < threshold ∧ x ∈ page.bytes) ∧
      post.freeBytes ⊆ paged.available freed oldBlocks ∧
      Set.Ico eoa' eoa ⊆ paged.available freed oldBlocks ∧
      post.unclassified = paged.unclassified := by
  obtain ⟨s, post, hpost, -, hunc, htiled, hmem, hfree, hgiven⟩ := postFree_published h threshold
  refine ⟨post, s.publishedEoa, hpost, s.aligned, s.le_eoa, htiled, ?_, hfree, hgiven, hunc⟩
  rintro x (⟨c, hx⟩ | hx)
  · rcases s.tracked_of_holds hx with htracked | ⟨d, hd, hxd⟩
    · exact .inl (.inl ((hmem x).mpr htracked))
    · have hdrop := s.redropped d hd
      have hpage := s.isPage d.1 (s.mem_pages (mem_append_right _ hd)).1
      exact .inr ⟨d.1, hdrop, hpage, hpage.2 ▸ hdrop.lt h.toReturning, hxd⟩
  · exact .inl (.inr (hunc ▸ hx))

theorem postFree_conserves_tail :
    ∃ post eoa', ({ new ⟨512, by decide, by decide⟩ with
        metadata := ⟨[⟨0, 100, by decide, by decide⟩], 100⟩ } : PagedEdit).postFree 4096 2048
        [(⟨1000, 1048, by decide, by decide⟩, .page .raw)] [⟨600, 40, by decide, by decide⟩] =
        .ok (post, eoa') ∧ 512 ∣ eoa' ∧ eoa' ≤ 2048 ∧ Tiled post eoa' := by
  refine (postFree_conserves _ _ _ _ _ ?_).imp fun post h => h.imp fun eoa' h =>
    ⟨h.1, h.2.1, h.2.2.1, h.2.2.2.1⟩
  exact committable_single _ (by decide) (by decide)
    (by simp [returned, Extent.disjoint_iff, Extent.stop])
    (by simp [returned, Extent.disjoint_iff, Extent.stop]) (by simp [returned, Extent.stop])

end PagedEdit

end Hdf5Pure.Space
