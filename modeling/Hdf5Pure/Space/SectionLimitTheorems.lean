import Hdf5Pure.Space.PagedTailTheorems
import Hdf5Pure.Space.PersistenceTheorems

/-!
# The bound on the section count

The tail of a commit is sized from a count made before it. The count is a bound because every
section of the committed state contains a whole piece of what was counted.
-/

namespace Hdf5Pure.Space

open Checked IntervalLists PagedPostFree List
open PagedSession (returned)

/-! ## Absorbed pieces -/

/-- The typed space `F` keeps the inputs' pieces together: its bytes come from them, the whole pages
of an input it has a byte of are raw, and in a page not wholly raw it has all or nothing of an
input. -/
structure Absorbs (ps : ℕ) (inputs : List Extent) (F : PageType → Set ℕ) : Prop where
  cover : ∀ t, ∀ x ∈ F t, ∃ d ∈ inputs, x ∈ d.bytes
  whole : ∀ d ∈ inputs, ∀ t, ∀ x ∈ F t, x ∈ pagesWithin ps d.bytes →
    pagesWithin ps d.bytes ⊆ F .raw
  edge : ∀ d ∈ inputs, ∀ t, ∀ x ∈ F t, x ∈ d.bytes → x ∉ pagesWithin ps (F .raw) →
    {y | y ∈ d.bytes ∧ y / ps = x / ps} ⊆ F t

variable {x : ℕ} {t : PageType} {d : Extent} {c : FreeClass}

/-- An interval of a canonical list lies in the region that it meets. -/
lemma FreeList.Canonical.Ico_subset {l : FreeList} (hl : l.Canonical) {r : Extent}
    (hr : r ∈ l.regions) {s t : ℕ} (hsub : Set.Ico s t ⊆ l.bytes) (hx : x ∈ Set.Ico s t)
    (hxr : x ∈ r.bytes) : Set.Ico s t ⊆ r.bytes := by
  obtain ⟨r', hr', hstart, hstop⟩ :=
    hl.separated.exists_of_Ico_subset (hx.1.trans_lt hx.2) hsub
  have heq : r = r' := by
    by_contra hne
    have hxr' : r.start ≤ x ∧ x < r.stop := Extent.mem_bytes.mp hxr
    have hx' : s ≤ x ∧ x < t := hx
    have := hl.separated.apart hr hr' hne
    omega
  rw [heq]
  exact Set.Ico_subset_Ico hstart hstop

lemma mem_page_iff {ps : ℕ} (hps : 0 < ps) {y : ℕ} :
    y / ps = x / ps ↔ y ∈ Set.Ico (x / ps * ps) (x / ps * ps + ps) := by
  have hdvd : ps ∣ x / ps * ps := Dvd.intro_left _ rfl
  have hpage := div_eq_div_iff_of_dvd (x := y) hps hdvd
  rwa [Nat.mul_div_cancel _ hps] at hpage

lemma page_le_of_lt {ps t : ℕ} (hps : 0 < ps) (ht : ps ∣ t) (hx : x < t) :
    x / ps * ps + ps ≤ t := by
  obtain ⟨k, rfl⟩ := ht
  have hdiv : x / ps < k := (Nat.div_lt_iff_lt_mul hps).mpr (by rwa [Nat.mul_comm])
  have hmul := Nat.mul_le_mul_right ps (Nat.succ_le_of_lt hdiv)
  rwa [Nat.succ_mul, Nat.mul_comm k] at hmul

section
variable {pageSize : FileSpacePageSize} {inputs : List Extent} {l : PageType → FreeList}

/-- Every piece of a region contains a piece of an input. -/
lemma Absorbs.piece (h : Absorbs pageSize.get inputs fun t => (l t).bytes)
    (hcan : ∀ t, (l t).Canonical) (hdisj : Disjoint (l .metadata).bytes (l .raw).bytes)
    {r q : Extent} (hr : r ∈ (l t).regions) (hq : q ∈ (PageParts.new r pageSize).pieces) :
    ∃ p ∈ inputs.flatMap fun d => (PageParts.new d pageSize).pieces, p.bytes ⊆ q.bytes := by
  have hps := pageSize.get_pos
  obtain ⟨x, hxq⟩ : ∃ x, x ∈ q.bytes := ⟨q.start, le_rfl, q.start_lt_stop⟩
  have hxr := PageParts.pieces_subset r pageSize hq hxq
  have hxt : x ∈ (l t).bytes := bytes_subset_covered hr hxr
  have hraw : x ∈ (l .raw).bytes → t = .raw := by
    intro hx
    cases t
    · exact absurd hx (Set.disjoint_left.mp hdisj hxt)
    · rfl
  obtain ⟨d, hd, hxd⟩ := h.cover t x hxt
  obtain ⟨p, hp, hxp⟩ := mem_covered.mp (PageParts.covered_pieces d pageSize ▸ hxd)
  refine ⟨p, mem_flatMap.mpr ⟨d, hd, hp⟩, ?_⟩
  -- a piece inside the list of `r` lies in `r`
  have hinside : p.bytes ⊆ (l t).bytes → p.bytes ⊆ r.bytes := fun hsub =>
    (hcan t).Ico_subset hr hsub hxp hxr
  rcases PageParts.pieces_at r pageSize hq hxq with ⟨hxw, hqeq⟩ | ⟨hxw, hqeq⟩ <;>
    rcases PageParts.pieces_at d pageSize hp hxp with ⟨hdw, hpeq⟩ | ⟨hdw, hpeq⟩
  · -- whole pages of the input in whole pages of the region
    have hsub := h.whole d hd t x hxt hdw
    obtain rfl := hraw (hsub hdw)
    rw [← hpeq] at hsub
    intro y hy
    rw [hqeq]
    intro z hz
    refine hinside hsub ?_
    rw [hpeq] at hy ⊢
    exact wholePages_pagesWithin _ _ y hy z hz
  · -- an edge of the input in a whole page of the region
    intro y hy
    rw [hpeq] at hy
    rw [hqeq]
    exact (mem_pagesWithin_congr hy.2).mpr hxw
  all_goals
    -- the page of an edge of the region is not wholly raw
    have hnot : x ∉ pagesWithin pageSize.get (l .raw).bytes := by
      intro hwhole
      obtain rfl := hraw (hwhole x rfl)
      refine hxw fun y hy => ?_
      refine (hcan .raw).Ico_subset hr (fun z hz => hwhole z ((mem_page_iff hps).mpr hz))
        ((mem_page_iff hps).mp rfl) hxr ((mem_page_iff hps).mp hy)
  · refine absurd ?_ hnot
    intro y hy
    refine h.whole d hd t x hxt hdw ?_
    exact wholePages_pagesWithin _ _ x hdw y hy
  · have hsub := h.edge d hd t x hxt hxd hnot
    rw [← hpeq] at hsub
    intro y hy
    rw [hqeq]
    refine ⟨hinside hsub hy, ?_⟩
    rw [hpeq] at hy
    exact hy.2

/-- The typed sections of such a state are no more than the pieces of the inputs. -/
lemma Absorbs.count_le (h : Absorbs pageSize.get inputs fun t => (l t).bytes)
    (hcan : ∀ t, (l t).Canonical) (hdisj : Disjoint (l .metadata).bytes (l .raw).bytes) :
    ((l .metadata).regions.map fun e => (PageParts.new e pageSize).count).sum +
        ((l .raw).regions.map fun e => (PageParts.new e pageSize).count).sum ≤
      (inputs.map fun e => (PageParts.new e pageSize).count).sum := by
  have hregions : DisjointExtents ((l .metadata).regions ++ (l .raw).regions) :=
    FreeList.pairwise_disjoint_append (hcan .metadata).pairwise (hcan .raw).pairwise hdisj
  have hle := length_le_of_subset (g := Extent.bytes)
   
    (ManagerSections.pieces_pairwise pageSize hregions)
    (fun b _ => ⟨b.start, le_rfl, b.start_lt_stop⟩) (by
      intro q hq
      obtain ⟨r, hr, hq⟩ := mem_flatMap.mp hq
      rcases mem_append.mp hr with hr | hr <;> exact h.piece hcan hdisj hr hq)
  simp only [length_flatMap, ← PageParts.count_eq, map_append, sum_append] at hle
  exact hle

end

namespace PagedEdit

/-! ## What the stages of a commit absorb -/

/-- The extents that the limit counts are held by a class or returned. -/
lemma mem_limitExtents {paged : PagedEdit} {extents : Returns}
    (hd : d ∈ paged.limitExtents (extents.map Prod.fst)) :
    (∃ c, d.bytes ⊆ paged.holds c) ∨ ∃ c, (d, c) ∈ extents := by
  simp only [limitExtents, mem_append] at hd
  rcases hd with ((((hd | hd) | hd) | hd) | hd) | hd
  · exact .inl ⟨.page .metadata, (bytes_subset_covered hd).trans Set.subset_union_left⟩
  · exact .inl ⟨.page .raw, (bytes_subset_covered hd).trans Set.subset_union_left⟩
  · exact .inl ⟨.dead, bytes_subset_covered hd⟩
  · exact .inl ⟨.page .metadata, (bytes_subset_covered hd).trans Set.subset_union_right⟩
  · exact .inl ⟨.page .raw, (bytes_subset_covered hd).trans Set.subset_union_right⟩
  · obtain ⟨⟨e, c⟩, he, rfl⟩ := mem_map.mp hd
    exact .inr ⟨c, he⟩

/-- Every byte of a commit is in one of the extents that the limit counts. -/
lemma exists_limitExtents {paged : PagedEdit} {extents : Returns}
    (hx : x ∈ paged.commitBytes extents c) :
    ∃ d ∈ paged.limitExtents (extents.map Prod.fst), x ∈ d.bytes := by
  simp only [limitExtents, mem_append]
  rcases hx with hx | ⟨e, he, hx⟩
  · rcases c with _ | _ | _
    · obtain ⟨d, hd, hxd⟩ := mem_covered.mp hx
      exact ⟨d, by tauto, hxd⟩
    all_goals
      rcases hx with hx | hx
      all_goals
        obtain ⟨d, hd, hxd⟩ := mem_covered.mp hx
        exact ⟨d, by tauto, hxd⟩
  · exact ⟨e, .inr (mem_map.mpr ⟨_, he, rfl⟩), hx⟩

def Admissions.Source {paged : PagedEdit} {threshold : ℕ} {extents : Returns}
    (a : Admissions paged threshold extents) (d : Extent) : Prop :=
  (∃ c, d.bytes ⊆ paged.holds c) ∨ ∃ c, (d, c) ∈ a.taken

namespace Admissions

variable {paged : PagedEdit} {threshold : ℕ} {extents : Returns}
  (a : Admissions paged threshold extents)

lemma source_or_dropped (hd : d ∈ paged.limitExtents (extents.map Prod.fst)) :
    a.Source d ∨ ∃ c, (d, c) ∈ a.dropped := by
  rcases mem_limitExtents hd with hd | ⟨c, hd⟩
  · exact .inl (.inl hd)
  · rcases mem_append.mp (a.split.subset hd) with hd | hd
    · exact .inl (.inr ⟨c, hd⟩)
    · exact .inr ⟨c, hd⟩

lemma Source.subset {a : Admissions paged threshold extents} (hd : a.Source d) :
    ∃ c, d.bytes ⊆ a.admitted c := by
  rcases hd with ⟨c, hd⟩ | ⟨c, hd⟩
  · exact ⟨c, hd.trans Set.subset_union_left⟩
  · exact ⟨c, fun x hx => .inr ⟨d, hd, hx⟩⟩

/-- A completed page has an end of a fragment shorter than a page, so that no held or admitted extent
contains it. -/
lemma Source.pages_apart {a : Admissions paged threshold extents} (h : paged.Returning extents)
    (hd : a.Source d) :
    Disjoint (pagesWithin paged.pageSize.get d.bytes) (covered a.pages) := by
  have hps := paged.pageSize.get_pos
  rw [Set.disjoint_left]
  intro x hx hxc
  obtain ⟨p, hp, hxp⟩ := mem_covered.mp hxc
  have hpage := a.isPage p hp
  -- the page lies in the extent
  have hsub : p.bytes ⊆ d.bytes := by
    intro y hy
    refine hx y ?_
    have hmem : ∀ z ∈ p.bytes, z / paged.pageSize.get = p.start / paged.pageSize.get := by
      intro z hz
      have hz := Extent.mem_bytes.mp hz
      rw [Extent.stop_eq, hpage.2] at hz
      exact (div_eq_div_iff_of_dvd hps hpage.1).mpr hz
    rw [hmem y hy, hmem x hxp]
  obtain ⟨f, hf, hlen, hends⟩ := a.fragment p hp
  obtain ⟨y, hyf, hyd⟩ : ∃ y, y ∈ f.1.bytes ∧ y ∈ d.bytes := by
    have hfpos := f.1.start_lt_stop
    rcases hends with hy | hy
    · exact ⟨_, Extent.mem_bytes.mpr ⟨le_rfl, hfpos⟩, hsub hy⟩
    · exact ⟨_, Extent.mem_bytes.mpr ⟨by omega, by omega⟩, hsub hy⟩
  rcases hd with ⟨c, hd⟩ | ⟨c, hd⟩
  · exact Set.disjoint_left.mp (h.free f (a.mem_extents_of_taken hf) c) (hd hyd) hyf
  -- the fragment is the extent itself, which is at least a page long
  have heq : f = (d, c) := eq_of_mem_bytes h.disjoint (a.mem_extents_of_taken hf)
    (a.mem_extents_of_taken hd) hyf hyd
  rw [heq] at hlen
  have hlen : d.len < paged.pageSize.get := hlen
  have hstart := hsub (Extent.mem_bytes.mpr ⟨le_rfl, p.start_lt_stop⟩)
  have hstop : p.stop - 1 ∈ d.bytes := hsub (Extent.mem_bytes.mpr ⟨by omega, by omega⟩)
  have hpstop := p.stop_eq
  have hdstop := d.stop_eq
  rw [Extent.mem_bytes] at hstart hstop
  rw [hpage.2] at hpstop
  omega

end Admissions

namespace Stages

variable {paged : PagedEdit} {threshold eoa : ℕ} {extents : Returns}
  (s : Stages paged threshold eoa extents)

def published (s : Stages paged threshold eoa extents) (t : PageType) : Set ℕ :=
  promotedBytes paged.pageSize.get s.tracked (.page t)

lemma exists_tracked (hx : x ∈ s.published t) : ∃ c, x ∈ s.tracked c :=
  exists_mem_promotedBytes.mp ⟨_, hx⟩

/-- Outside the pages that are wholly raw the classes are those before the promotion. -/
lemma mem_published (hx : x ∉ pagesWithin paged.pageSize.get (s.published .raw)) :
    x ∈ s.published t ↔ x ∈ s.tracked (.page t) := by
  have hnot : x ∉ pagesWithin paged.pageSize.get {x | ∃ c, x ∈ s.tracked c} := by
    intro hw
    refine hx fun y hy => .inr ⟨rfl, ?_⟩
    exact wholePages_pagesWithin _ _ x hw y hy
  constructor
  · rintro (hxt | ⟨-, hxw⟩)
    · exact hxt.1
    · exact absurd hxw hnot
  · intro hxt
    exact .inl ⟨hxt, hnot⟩

section
variable (h : paged.Returning extents)
include h

lemma source_whole (hd : s.Source d) :
    pagesWithin paged.pageSize.get d.bytes ⊆ s.published .raw := by
  obtain ⟨c, hsub⟩ := hd.subset
  intro x hx
  refine .inr ⟨rfl, fun y hy => ⟨c, .inl ?_⟩⟩
  have hy' := wholePages_pagesWithin _ _ x hx y hy
  exact .inl ⟨hsub (pagesWithin_subset _ _ hy'), Set.disjoint_left.mp (hd.pages_apart h) hy'⟩

/-- The tracked bytes of a dropped extent are those of the partial page. -/
lemma head_of_dropped {c' : FreeClass} (hd : (d, c) ∈ s.dropped) (hx : x ∈ d.bytes)
    (hxt : x ∈ s.tracked c') :
    ∃ part, s.head = some (part, c') ∧ x ∈ part.bytes ∧ part.start = d.start ∧
      part.stop = s.publishedEoa ∧ s.publishedEoa < d.start + paged.pageSize.get := by
  rcases hxt with hxt | ⟨part, hpart, hxp⟩
  · exact absurd hx (Set.disjoint_left.mp
      (s.reoffered_disjoint_dropped h (mem_append_left _ hd) c') hxt)
  have hhead := Option.mem_toList.mp hpart
  obtain ⟨e, he, hlen, hstart, hstop, hlt⟩ := s.head_dropped part c' hhead
  have hestop := e.stop_eq
  have hxe : x ∈ e.bytes := by
    rw [Extent.mem_bytes] at hxp ⊢
    omega
  have heq : (e, c') = (d, c) := eq_of_mem_bytes h.disjoint (s.mem_extents_of_dropped he)
    (s.mem_extents_of_dropped hd) hxe hx
  cases heq
  exact ⟨part, hhead, hxp, hstart, hstop, hlt⟩

/-- No whole page of a dropped extent is tracked. -/
lemma not_tracked_of_dropped {c' : FreeClass} (hd : (d, c) ∈ s.dropped)
    (hx : x ∈ pagesWithin paged.pageSize.get d.bytes) : x ∉ s.tracked c' := by
  have hps := paged.pageSize.get_pos
  intro hxt
  obtain ⟨part, -, hxp, -, hstop, hlt⟩ := s.head_of_dropped h hd (hx x rfl) hxt
  have hxlt := (Extent.mem_bytes.mp hxp).2
  -- the page of `x` ends at or below the published end, and starts in the extent
  have hstart : x / paged.pageSize.get * paged.pageSize.get ∈ d.bytes :=
    hx _ (Nat.mul_div_cancel _ hps)
  have hle := (Extent.mem_bytes.mp hstart).1
  have hend := page_le_of_lt hps s.aligned (hstop ▸ hxlt)
  omega

lemma not_completed (hx : x ∈ s.tracked (.page t))
    (hraw : x ∉ pagesWithin paged.pageSize.get (s.published .raw)) : x ∉ covered s.pages := by
  intro hxc
  rcases hx with (hx | ⟨e, he, hx⟩) | ⟨part, hpart, hx⟩
  · exact hx.2 hxc
  · -- a page that is kept is wholly raw
    refine hraw fun y hy => .inr ⟨rfl, fun z hz => ⟨.page t, .inl (.inr ⟨e, he, ?_⟩)⟩⟩
    have hpage := s.isPage e (s.mem_pages (mem_append_left _ he)).1
    exact hpage.wholePages x hx z (hz.trans hy)
  · obtain ⟨-, e, he, hsub⟩ := s.head_spec hpart
    obtain ⟨c, hxa⟩ := s.covered_pages_subset hxc
    exact Set.disjoint_left.mp (s.admitted_disjoint_dropped h he c) hxa (hsub hx)

/-- The published state absorbs the pieces of what the limit counts. -/
lemma absorbs : Absorbs paged.pageSize.get (paged.limitExtents (extents.map Prod.fst))
    s.published := by
  refine ⟨?_, ?_, ?_⟩
  · intro t x hx
    obtain ⟨c, hx⟩ := s.exists_tracked hx
    obtain ⟨c, hx⟩ := s.tracked_origin hx
    exact exists_limitExtents hx
  · intro d hd t x hx hxw
    rcases s.source_or_dropped hd with hd | ⟨c, hd⟩
    · exact s.source_whole h hd
    · obtain ⟨c', hx⟩ := s.exists_tracked hx
      exact absurd hx (s.not_tracked_of_dropped h hd hxw)
  · rintro d hd t x hx hxd hraw y ⟨hyd, hyx⟩
    have hyraw : y ∉ pagesWithin paged.pageSize.get (s.published .raw) :=
      fun hy => hraw ((mem_pagesWithin_congr hyx).mp hy)
    rw [s.mem_published hraw] at hx
    rw [s.mem_published hyraw]
    rcases s.source_or_dropped hd with hd | ⟨c, hd⟩
    · -- neither byte is in a completed page
      have hxc := s.not_completed h hx hraw
      have hyc : y ∉ covered s.pages := by
        intro hy
        obtain ⟨p, hp, hyp⟩ := mem_covered.mp hy
        exact hxc (mem_covered.mpr ⟨p, hp, (s.isPage p hp).wholePages y hyp x hyx.symm⟩)
      obtain ⟨c, hsub⟩ := hd.subset
      have hxt : x ∈ s.tracked c := .inl (.inl ⟨hsub hxd, hxc⟩)
      have heq : c = .page t := by
        by_contra hne
        exact Set.disjoint_left.mp (s.tracked_disjoint h hne) hxt hx
      rw [← heq]
      exact .inl (.inl ⟨hsub hyd, hyc⟩)
    · obtain ⟨part, hhead, hxp, hstart, hstop, -⟩ := s.head_of_dropped h hd hxd hx
      refine .inr ⟨part, Option.mem_toList.mpr hhead, ?_⟩
      -- a page that starts below the published end ends there
      have hxlt := (Extent.mem_bytes.mp hxp).2
      rw [hstop] at hxlt
      have hylt : y < s.publishedEoa :=
        (wholePages_Ico (dvd_zero _) s.aligned x ⟨Nat.zero_le _, hxlt⟩ y hyx).2
      rw [Extent.mem_bytes, hstart, hstop]
      exact ⟨(Extent.mem_bytes.mp hyd).1, hylt⟩

/-- The whole pages of a dropped extent that reaches the bytes given back are among them. -/
lemma dropped_whole_given (hd : (d, c) ∈ s.dropped) (hxd : x ∈ d.bytes)
    (hx : x ∈ Set.Ico s.publishedEoa eoa) :
    pagesWithin paged.pageSize.get d.bytes ⊆ Set.Ico s.publishedEoa eoa := by
  have hps := paged.pageSize.get_pos
  obtain ⟨d', hd', -, hlt, hstop, hxd'⟩ := s.given x hx.1 hx.2
  obtain rfl : d' = (d, c) := by
    rcases mem_append.mp hd' with hd' | hd'
    · exact eq_of_mem_bytes h.disjoint (s.mem_extents_of_dropped hd')
        (s.mem_extents_of_dropped hd) hxd' hxd
    · obtain ⟨c', hxa⟩ := s.covered_pages_subset
        (bytes_subset_covered (s.mem_pages (mem_append_right _ hd')).1 hxd')
      exact absurd hxd (Set.disjoint_left.mp (s.admitted_disjoint_dropped h hd c') hxa)
  intro y hy
  refine ⟨?_, (Extent.mem_bytes.mp (hy y rfl)).2.trans_le hstop⟩
  -- a page that starts below the published end ends there, and would start before the extent
  by_contra hylt
  have hstart : y / paged.pageSize.get * paged.pageSize.get ∈ d.bytes :=
    hy _ (Nat.mul_div_cancel _ hps)
  have hle := (Extent.mem_bytes.mp hstart).1
  have hend := page_le_of_lt hps s.aligned (not_le.mp hylt)
  have hlt : s.publishedEoa < d.start + paged.pageSize.get := hlt
  omega

/-- So does the state of an append, whose raw space has the bytes given back. -/
lemma absorbs_restored (heoa : paged.pageSize.get ∣ eoa) :
    Absorbs paged.pageSize.get (paged.limitExtents (extents.map Prod.fst))
      fun t => s.published t ∪ {x | t = .raw ∧ x ∈ Set.Ico s.publishedEoa eoa} := by
  obtain ⟨hcover, hwhole, hedge⟩ := s.absorbs h
  refine ⟨?_, ?_, ?_⟩
  · rintro t x (hx | ⟨-, hx⟩)
    · exact hcover t x hx
    · obtain ⟨c, hx⟩ := s.given_origin hx.1 hx.2
      exact exists_limitExtents hx
  · rintro d hd t x (hx | ⟨-, hx⟩) hxw
    · exact (hwhole d hd t x hx hxw).trans Set.subset_union_left
    · rcases s.source_or_dropped hd with hd | ⟨c, hd⟩
      · exact (s.source_whole h hd).trans Set.subset_union_left
      · intro y hy
        exact .inr ⟨rfl, s.dropped_whole_given h hd (hxw x rfl) hx hy⟩
  · rintro d hd t x (hx | ⟨-, hx⟩) hxd hraw
    · have hraw' : x ∉ pagesWithin paged.pageSize.get (s.published .raw) :=
        fun hw => hraw fun y hy => .inl (hw y hy)
      exact (hedge d hd t x hx hxd hraw').trans Set.subset_union_left
    · refine absurd ?_ hraw
      intro y hy
      exact .inr ⟨rfl, wholePages_Ico s.aligned heoa x hx y hy⟩

end

end Stages

/-! ## The limit -/

lemma countSections_of_lt {count : ℕ} {l : List ℕ} (h : count + l.sum < 2 ^ 64) :
    countSections count l = .ok (count + l.sum) := by
  induction l generalizing count with
  | nil => rfl
  | cons n l ih =>
    rw [sum_cons] at h ⊢
    rw [countSections, checkedAdd, if_pos (by omega)]
    show countSections (count + n) l = _
    rw [ih (by omega), Nat.add_assoc]

lemma length_lt_of_disjoint {l : List Extent} (h : DisjointExtents l) : l.length < 2 ^ 64 := by
  have hle := length_le_of_subset
    (m := range (2 ^ 64 - 1)) h (fun x _ => Set.singleton_nonempty x) (by
      intro e _
      have hpos := e.start_lt_stop
      have hlimit := e.stop_lt_limit
      refine ⟨e.start, mem_range.mpr (by omega), Set.singleton_subset_iff.mpr ?_⟩
      exact Extent.mem_bytes.mpr ⟨le_rfl, hpos⟩)
  rw [length_range] at hle
  omega

section
variable {paged : PagedEdit} {extents : Returns}

/-- The extents that the limit counts and the unclassified regions share no byte. -/
lemma Returning.limitExtents_pairwise (h : paged.Returning extents) :
    DisjointExtents (paged.limitExtents (extents.map Prod.fst) ++ paged.unclassified.regions) := by
  have hclass : ∀ t, DisjointExtents ((paged.list t).regions ++ paged.pad t) := fun t =>
    FreeList.pairwise_disjoint_append (h.separate.canonical t).pairwise (h.separate.pads t)
      (h.separate.padFree t)
  have hholds : ∀ t, covered ((paged.list t).regions ++ paged.pad t) = paged.holds (.page t) :=
    fun t => covered_append _ _
  have hmem : ∀ {x}, x ∈ covered (extents.map Prod.fst) → ∃ d ∈ extents, x ∈ d.1.bytes := by
    intro x hx
    obtain ⟨_, he, hxe⟩ := mem_covered.mp hx
    obtain ⟨d, hd, rfl⟩ := mem_map.mp he
    exact ⟨d, hd, hxe⟩
  have hunc : Disjoint (covered (extents.map Prod.fst)) paged.unclassified.bytes := by
    rw [Set.disjoint_left]
    intro x hx
    obtain ⟨d, hd, hxd⟩ := hmem hx
    exact Set.disjoint_right.mp (h.unclassified d hd) hxd
  have hclear : ∀ c, Disjoint (paged.holds c)
      (covered (extents.map Prod.fst ++ paged.unclassified.regions)) := by
    intro c
    rw [covered_append, Set.disjoint_union_right]
    refine ⟨Set.disjoint_right.mpr fun x hx => ?_, (h.separate.apart c).symm⟩
    obtain ⟨d, hd, hxd⟩ := hmem hx
    exact Set.disjoint_right.mp (h.free d hd c) hxd
  -- class by class: unclassified, returns, raw and metadata with their padding, dead
  have hreturns := FreeList.pairwise_disjoint_append (pairwise_map.mpr h.disjoint)
    h.separate.unclassified.pairwise hunc
  have hraw := FreeList.pairwise_disjoint_append (hclass .raw) hreturns (by
    rw [hholds]
    exact hclear _)
  have hmetadata := FreeList.pairwise_disjoint_append (hclass .metadata) hraw (by
    rw [covered_append _ (_ ++ _), hholds, hholds, Set.disjoint_union_right]
    exact ⟨h.separate.classes _ _ (by simp), hclear _⟩)
  have hall := FreeList.pairwise_disjoint_append h.separate.dead.pairwise hmetadata (by
    rw [covered_append (_ ++ _), covered_append (_ ++ _), hholds, hholds, Set.disjoint_union_right,
      Set.disjoint_union_right]
    exact ⟨h.separate.classes .dead _ (by simp), h.separate.classes .dead _ (by simp),
      hclear .dead⟩)
  refine (List.Perm.pairwise_iff (fun {_ _} hab => hab.symm) ?_).mp hall
  rw [← Multiset.coe_eq_coe]
  simp only [limitExtents, list, pad, ← Multiset.coe_add]
  abel

/-- The limit is the number of the pieces. -/
lemma Returning.tailSectionLimit_eq (h : paged.Returning extents) :
    paged.tailSectionLimit (extents.map Prod.fst) =
      .ok (((paged.limitExtents (extents.map Prod.fst)).map
          fun e => (PageParts.new e paged.pageSize).count).sum +
        paged.unclassified.regions.length) := by
  have hlt := length_lt_of_disjoint
    (ManagerSections.pieces_append_pairwise paged.pageSize h.limitExtents_pairwise)
  simp only [length_append, length_flatMap, ← PageParts.count_eq] at hlt
  unfold tailSectionLimit
  rw [countSections_of_lt (by simpa using hlt)]
  simp

/-- The sections of a state that absorbs the pieces are within the limit. -/
lemma sections_le_limit (h : paged.Returning extents) {post : PagedPostFree}
    (hps : post.pageSize = paged.pageSize) (hunc : post.unclassified = paged.unclassified)
    (hcan : post.Canonical)
    (hclasses : Disjoint post.metadata.bytes post.raw.bytes)
    (habsorbs : Absorbs paged.pageSize.get (paged.limitExtents (extents.map Prod.fst))
      fun t => (post.list (.page t)).bytes) :
    ∃ limit managers, paged.tailSectionLimit (extents.map Prod.fst) = .ok limit ∧
      ManagerSections.fromSnapshot post.admittedSnapshot = .ok managers ∧
      ManagerSections.total managers ≤ limit := by
  have hle := habsorbs.count_le (fun t => hcan _) hclasses
  have hapart : Disjoint (covered (post.metadata.regions ++ post.raw.regions))
      (covered post.unclassified.regions) := by
    obtain ⟨-, -, hcross⟩ := pairwise_append.mp h.limitExtents_pairwise
    have hinput : ∀ t, Disjoint (post.list (.page t)).bytes (covered paged.unclassified.regions) := by
      refine fun t => disjoint_covered_right.mpr fun b hb => Set.disjoint_left.mpr fun x hx => ?_
      obtain ⟨d, hd, hxd⟩ := habsorbs.cover t x hx
      exact Set.disjoint_left.mp (hcross d hd b hb) hxd
    rw [covered_append, hunc]
    exact Set.disjoint_union_left.mpr ⟨hinput .metadata, hinput .raw⟩
  obtain ⟨managers, hmanagers, htotal⟩ := @ManagerSections.total_pagedLists post.pageSize _ _ _
    (FreeList.pairwise_disjoint_append (FreeList.pairwise_disjoint_append
      (hcan (.page .metadata)).pairwise (hcan (.page .raw)).pairwise hclasses)
      (hunc ▸ h.separate.unclassified.pairwise) hapart)
  refine ⟨_, managers, h.tailSectionLimit_eq, hmanagers, ?_⟩
  rw [htotal, hps, hunc]
  exact Nat.add_le_add_right hle _

end

/-- The section limit holds for the state that a commit publishes and for the state of an append
before its tail is reserved. -/
theorem sections_le_tailSectionLimit (paged : PagedEdit) (threshold eoa : ℕ)
    (freed : Returns) (oldBlocks : List Extent)
    (h : paged.Returning (returned freed oldBlocks)) (heoa : paged.pageSize.get ∣ eoa) :
    ∃ limit, paged.tailSectionLimit (freed.map Prod.fst ++ oldBlocks) = .ok limit ∧
      (∃ post eoa' managers, paged.postFree threshold eoa freed oldBlocks = .ok (post, eoa') ∧
        ManagerSections.fromSnapshot post.admittedSnapshot = .ok managers ∧
        ManagerSections.total managers ≤ limit) ∧
      ∃ plan, paged.planAppend threshold eoa freed oldBlocks = .ok plan ∧
        ∀ append, plan = .ok append → ∃ managers,
          ManagerSections.fromSnapshot append.admittedSnapshot = .ok managers ∧
          ManagerSections.total managers ≤ limit := by
  obtain ⟨s, post, hpost, hps, hunc, hcan, hbytes⟩ := postFree_stages h heoa threshold
  rw [show freed.map Prod.fst ++ oldBlocks = (returned freed oldBlocks).map Prod.fst by
    simp [returned, Function.comp_def]]
  have hlists : (fun t => (post.list (.page t)).bytes) = s.published :=
    funext fun t => hbytes (.page t)
  have hclasses : Disjoint (post.list (.page .metadata)).bytes (post.list (.page .raw)).bytes := by
    rw [hbytes, hbytes]
    exact s.published_disjoint h (by simp)
  obtain ⟨limit, managers, hlimit, hmanagers, hle⟩ :=
    sections_le_limit h hps hunc hcan hclasses (hlists ▸ s.absorbs h)
  refine ⟨limit, hlimit, ⟨post, s.publishedEoa, managers, hpost, hmanagers, hle⟩, ?_⟩
  unfold planAppend
  cases checkPageBoundary paged.pageSize eoa with
  | error e => exact ⟨_, rfl, by simp⟩
  | ok _ =>
  -- the bytes given back are free in no class, and join the raw space
  have hgiven : ∀ c, Disjoint (post.list c).bytes (Set.Ico s.publishedEoa eoa) := by
    intro c
    rw [hbytes, Set.disjoint_left]
    intro x hx
    obtain ⟨c', hx⟩ := exists_mem_promotedBytes.mp ⟨c, hx⟩
    exact Set.disjoint_left.mp (s.tracked_disjoint_given h c') hx
  have heoalimit : s.publishedEoa < eoa → eoa < 2 ^ 64 := by
    intro hlt
    obtain ⟨d, -, -, -, -, hxd⟩ := s.given (eoa - 1) (by omega) (by omega)
    have hstop := d.1.stop_lt_limit
    have := (Extent.mem_bytes.mp hxd).2
    omega
  obtain ⟨post', htrack, hps', hunc', hcan', hbytes'⟩ :=
    trackBetween_spec hcan heoalimit (hgiven (.page .raw))
  simp only [hpost, htrack, ok_bind]
  refine ⟨_, rfl, fun append happend => ?_⟩
  cases happend
  have hlists' : (fun t => (post'.list (.page t)).bytes) =
      fun t => s.published t ∪ {x | t = .raw ∧ x ∈ Set.Ico s.publishedEoa eoa} := by
    funext t
    rw [hbytes', hbytes]
    simp only [FreeClass.page.injEq]
    rfl
  have hclasses' : Disjoint (post'.list (.page .metadata)).bytes
      (post'.list (.page .raw)).bytes := by
    rw [hbytes', hbytes', Set.disjoint_left]
    rintro x (hx | ⟨hc, -⟩) (hx' | ⟨-, hx'⟩)
    · exact Set.disjoint_left.mp hclasses hx hx'
    · exact Set.disjoint_left.mp (hgiven _) hx hx'
    · cases hc
    · cases hc
  obtain ⟨limit', managers', hlimit', hmanagers', hle'⟩ := sections_le_limit h (hps'.trans hps)
    (hunc'.trans hunc) hcan' hclasses' (hlists' ▸ s.absorbs_restored h heoa)
  cases hlimit.symm.trans hlimit'
  exact ⟨managers', hmanagers', hle'⟩

theorem sections_le_tailSectionLimit_tail :
    ∃ limit post eoa' managers, ({ new ⟨512, by decide, by decide⟩ with
          metadata := ⟨[⟨0, 100, by decide, by decide⟩], 100⟩ } : PagedEdit).tailSectionLimit
        [⟨1000, 1048, by decide, by decide⟩, ⟨600, 40, by decide, by decide⟩] = .ok limit ∧
      ({ new ⟨512, by decide, by decide⟩ with
          metadata := ⟨[⟨0, 100, by decide, by decide⟩], 100⟩ } : PagedEdit).postFree 4096 2048
        [(⟨1000, 1048, by decide, by decide⟩, .page .raw)] [⟨600, 40, by decide, by decide⟩] =
        .ok (post, eoa') ∧
      ManagerSections.fromSnapshot post.admittedSnapshot = .ok managers ∧
      ManagerSections.total managers ≤ limit := by
  refine (sections_le_tailSectionLimit _ _ _ [(⟨1000, 1048, by decide, by decide⟩, .page .raw)]
    [⟨600, 40, by decide, by decide⟩] ?_ ?_).imp fun limit h => h.2.1.imp fun post h' =>
      h'.imp fun eoa' h' => h'.imp fun managers h' => ⟨h.1, h'⟩
  · exact (committable_single _ (show 512 ∣ 2048 by decide) (by decide)
      (by simp [returned, Extent.disjoint_iff, Extent.stop])
      (by simp [returned, Extent.disjoint_iff, Extent.stop])
      (by simp [returned, Extent.stop])).toReturning
  · decide

end PagedEdit

end Hdf5Pure.Space
