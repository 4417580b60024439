import Hdf5Pure.Space.PageOwnership
import Hdf5Pure.Space.PageWorklistTheorems

/-!
# PAGE commits

A class only gains bytes that were its own or were freed under it, except that raw space gains whole
pages. The end of allocation only moves over bytes that were freed and are tracked nowhere.
-/

namespace Hdf5Pure.Space

open Checked IntervalLists List

/-! ## Padding -/

lemma PagedEdit.withPadding_spec {l : FreeList} (hl : l.Canonical) {padding : List Extent}
    (hd : DisjointExtents padding) (hfree : Disjoint l.bytes (covered padding)) :
    ∃ l', PagedEdit.withPadding l padding = .ok l' ∧ l'.Canonical ∧
      l'.bytes = l.bytes ∪ covered padding := by
  match padding with
  | [] => exact ⟨l, rfl, hl, by simp⟩
  | [e] =>
    rw [covered_cons, covered_nil, Set.union_empty] at hfree ⊢
    exact FreeList.free_spec hl hfree
  | a :: b :: rest =>
    obtain ⟨ordered, hord, hperm, hasc⟩ := orderedReturns_spec
      (l := (a :: b :: rest).map (·, ())) (pairwise_map.mpr hd)
    have hpermExt : (ordered.map Prod.fst).Perm (a :: b :: rest) := by
      simpa [Function.comp_def] using hperm.map Prod.fst
    have hascExt : AscendingExtents (ordered.map Prod.fst) := pairwise_map.mpr hasc
    obtain ⟨pads, hpads, hpcan, hpbytes⟩ := FreeList.fromSorted_of_ascending hascExt
    rw [FreeList.covered_perm hpermExt] at hpbytes
    have hcans : ∀ m ∈ [l, pads], m.Canonical := by simpa using ⟨hl, hpcan⟩
    obtain ⟨l', hl', hcan', hbytes⟩ :=
      FreeList.fromLists_of_disjoint hcans (by simpa [hpbytes] using hfree)
    refine ⟨l', ?_, hcan', ?_⟩
    · simp only [PagedEdit.withPadding, hord, hpads, ok_bind, hl']
    · rw [hbytes, ← hpbytes]
      ext x
      simp [FreeList.unionBytes]

/-! ## Completed pages -/

def IsPage (ps : ℕ) (e : Extent) : Prop := ps ∣ e.start ∧ e.len = ps

variable {ps : ℕ} {pages runs : List Extent} {lists : FreeClass → Set ℕ}

lemma IsPage.wholePages {e : Extent} (h : IsPage ps e) : WholePages ps e.bytes := by
  refine wholePages_Ico h.1 ?_
  rw [Extent.stop_eq, h.2]
  exact dvd_add h.1 dvd_rfl

lemma ascending_of_pages (hsort : pages.Pairwise fun a b => a.start < b.start)
    (hpages : ∀ p ∈ pages, IsPage ps p) :
    AscendingExtents pages := by
  refine hsort.imp_of_mem fun {a b} ha hb hlt => ?_
  obtain ⟨⟨i, hi⟩, hlen⟩ := hpages a ha
  obtain ⟨⟨j, hj⟩, -⟩ := hpages b hb
  have hij : i < j := lt_of_mul_lt_mul_left (a := ps) (by omega) (Nat.zero_le _)
  have hle : ps * (i + 1) ≤ ps * j := Nat.mul_le_mul_left ps hij
  rw [Nat.mul_add, Nat.mul_one] at hle
  rw [Extent.stop_eq]
  omega

namespace PagedPostFree

lemma candidatePages_spec (post : PagedPostFree) (extents dropped : Returns) :
    (∀ p ∈ post.candidatePages extents dropped, IsPage post.pageSize.get p) ∧
      (post.candidatePages extents dropped).Pairwise fun a b => a.start < b.start := by
  refine ⟨fun p hp => ?_, (OrdMap.collect_keyed Extent.start _).1.values_pairwise⟩
  have hmem := (OrdMap.collect_keyed Extent.start _).2 p hp
  obtain ⟨address, -, hnew⟩ := mem_filterMap.mp hmem
  obtain ⟨hstart, hlen⟩ := Extent.new_eq_some.mp hnew
  exact ⟨hstart ▸ Dvd.intro_left _ rfl, hlen⟩

/-- A candidate page holds an end of an admitted fragment shorter than a page. -/
lemma candidatePages_fragment (post : PagedPostFree) (extents dropped : Returns)
    {p : Extent} (hp : p ∈ post.candidatePages extents dropped) :
    ∃ d ∈ extents, d ∉ dropped ∧ d.1.len < post.pageSize.get ∧
      (d.1.start ∈ p.bytes ∨ d.1.stop - 1 ∈ p.bytes) := by
  have hps := post.pageSize.get_pos
  have hmem := (OrdMap.collect_keyed Extent.start _).2 p hp
  obtain ⟨address, haddress, hnew⟩ := mem_filterMap.mp hmem
  obtain ⟨hstart, hlen⟩ := Extent.new_eq_some.mp hnew
  -- the page starts at the boundary below the address
  have hin : address ∈ p.bytes := by
    have hmod := Nat.mod_lt address hps
    have hdiv := Nat.div_add_mod' address post.pageSize.get
    rw [Extent.mem_bytes, Extent.stop_eq]
    omega
  obtain ⟨e, he, haddr⟩ := mem_flatMap.mp haddress
  obtain ⟨hext, hfilter⟩ := mem_filter.mp he
  obtain ⟨⟨e', c⟩, hd, rfl⟩ := mem_map.mp hext
  rw [Bool.and_eq_true, decide_eq_true_eq] at hfilter
  refine ⟨(e', c), hd, fun hdrop => ?_, hfilter.1.2, ?_⟩
  · have hcontains : (dropped.map Prod.fst).contains e' = true :=
      contains_iff_mem.mpr (mem_map.mpr ⟨_, hdrop, rfl⟩)
    simp only [hcontains, Bool.not_true] at hfilter
    exact absurd hfilter.2 (by simp)
  · rcases mem_pair.mp haddr with rfl | rfl
    · exact .inl hin
    · exact .inr hin

lemma completedPages_spec (pages : List Extent) (runs : List Extent) :
    (completedPages runs pages).Sublist pages ∧
      ∀ p ∈ completedPages runs pages, p.bytes ⊆ covered runs := by
  induction pages generalizing runs with
  | nil => exact ⟨List.Sublist.refl _, by simp [completedPages]⟩
  | cons page rest ih =>
    obtain ⟨runs', hruns⟩ : ∃ runs', runs' = runs.dropWhile fun run => run.stop ≤ page.start :=
      ⟨_, rfl⟩
    have hsub : covered runs' ⊆ covered runs := fun x ⟨e, he, hxe⟩ =>
      ⟨e, (hruns ▸ dropWhile_sublist _).subset he, hxe⟩
    obtain ⟨hsubl, hin⟩ := ih runs'
    unfold completedPages
    simp only [← hruns]
    split_ifs with hhead
    · refine ⟨hsubl.cons_cons page, forall_mem_cons.mpr ⟨?_, fun p hp => (hin p hp).trans hsub⟩⟩
      cases hr : runs'.head? with
      | none => simp [hr] at hhead
      | some run =>
        simp only [hr, Option.any_some, decide_eq_true_eq] at hhead
        rintro x ⟨hx, hx'⟩
        exact hsub ⟨run, mem_of_mem_head? hr, by omega, by omega⟩
    · exact ⟨hsubl.cons page, fun p hp => (hin p hp).trans hsub⟩

/-! ## The class lists during a commit -/

/-- The class lists are canonical and disjoint: each holds bytes of its own, raw space also whole
pages. -/
structure Tracked (post : PagedPostFree) (own : FreeClass → Set ℕ) : Prop where
  canonical : ∀ c, (post.list c).Canonical
  disjoint : ∀ c c', c ≠ c' → Disjoint (post.list c).bytes (post.list c').bytes
  owned : ∀ c, c ≠ .page .raw → (post.list c).bytes ⊆ own c
  raw : ∀ x ∈ post.raw.bytes, x ∈ own (.page .raw) ∨
    ∀ y, y / post.pageSize.get = x / post.pageSize.get → y ∈ post.raw.bytes
  within : ∀ c, (post.list c).bytes ⊆ {x | ∃ c', x ∈ own c'}

variable {post : PagedPostFree} {dropped : Returns}

lemma fromLists_classes (hcan : post.Canonical) (hdisj : post.Apart) :
    ∃ runs, FreeList.fromLists [post.metadata, post.raw, post.dead] = .ok (.ok runs) ∧
      runs.Canonical ∧ ∀ x, x ∈ runs.bytes ↔ ∃ c, x ∈ (post.list c).bytes := by
  have hcans : ∀ l ∈ [post.metadata, post.raw, post.dead], l.Canonical := by
    simpa using ⟨hcan (.page .metadata), hcan (.page .raw), hcan .dead⟩
  have h1 := hdisj (.page .metadata) (.page .raw) (by simp)
  have h2 := hdisj (.page .metadata) .dead (by simp)
  have h3 := hdisj (.page .raw) .dead (by simp)
  obtain ⟨runs, hruns, hcan, hbytes⟩ := FreeList.fromLists_of_disjoint hcans (by
    simpa using ⟨⟨h1, h2⟩, h3⟩)
  refine ⟨runs, hruns, hcan, fun x => ?_⟩
  rw [hbytes, FreeClass.exists_iff]
  simp [FreeList.unionBytes, list]

lemma takeRanges_spec (hcan : post.Canonical) {removed : FreeList} (hr : removed.Canonical) :
    ∃ metadata raw dead, post.metadata.takeRanges removed = .ok metadata ∧
      post.raw.takeRanges removed = .ok raw ∧ post.dead.takeRanges removed = .ok dead ∧
      ∀ c, (({ post with metadata := metadata, raw := raw, dead := dead } :
          PagedPostFree).list c).Canonical ∧
        (({ post with metadata := metadata, raw := raw, dead := dead } :
          PagedPostFree).list c).bytes = (post.list c).bytes \ removed.bytes := by
  obtain ⟨metadata, hm, hmcan, hmbytes⟩ :=
    FreeList.takeRanges_spec (hcan (.page .metadata)) hr
  obtain ⟨raw, hw, hwcan, hwbytes⟩ := FreeList.takeRanges_spec (hcan (.page .raw)) hr
  obtain ⟨dead, hd, hdcan, hdbytes⟩ := FreeList.takeRanges_spec (hcan .dead) hr
  exact ⟨metadata, raw, dead, hm, hw, hd,
    FreeClass.forall_iff.mpr ⟨⟨hdcan, hdbytes⟩, ⟨hmcan, hmbytes⟩, hwcan, hwbytes⟩⟩

/-- What releasing completed pages leaves: the pages leave their classes, and those that are taken
again join raw space. -/
lemma releasePages_exact (hcan : post.Canonical) (threshold : ℕ) (hasc : AscendingExtents pages) :
    ∃ dropped post' taken, post.releasePages threshold pages = .ok (dropped, post') ∧
      post'.pageSize = post.pageSize ∧ post'.unclassified = post.unclassified ∧
      post'.Canonical ∧ (pages.map (·, FreeClass.page .raw)).Perm (taken ++ dropped) ∧
      ∀ c, (post'.list c).bytes = ((post.list c).bytes \ covered pages) ∪ classBytes c taken := by
  obtain ⟨removed, hrem, hremcan, hrembytes⟩ := FreeList.fromSorted_of_ascending hasc
  obtain ⟨metadata, raw, dead, hm, hw, hd, hlists⟩ := takeRanges_spec hcan hremcan
  obtain ⟨mid, hmid⟩ : ∃ mid, mid = ({ post with metadata := metadata, raw := raw, dead := dead } :
    PagedPostFree) := ⟨_, rfl⟩
  rw [← hmid, hrembytes] at hlists
  have hret : PageAdmission.Returnable mid (pages.map (·, .page .raw)) := by
    refine ⟨pairwise_map.mpr (FreeList.pairwise_disjoint_of_ascending hasc), ?_⟩
    simp only [forall_mem_map]
    intro p hp c
    rw [(hlists c).2]
    exact Set.disjoint_sdiff_left.mono_right (bytes_subset_covered hp)
  obtain ⟨dropped, post', hrel, hres⟩ := releaseBatch_spec (fun c => (hlists c).1) threshold hret
  obtain ⟨taken, hperm, hbytes⟩ := hres.split
  refine ⟨dropped, post', taken, ?_, by rw [hres.pageSize, hmid], by rw [hres.unclassified, hmid],
    hres.canonical, hperm, fun c => by rw [hbytes c, (hlists c).2]⟩
  simp only [releasePages, hrem, hm, hw, hd, ok_bind]
  rw [← hmid]
  exact hrel

/-! ## Giving back the tail -/

lemma droppedRun_spec {eoa : ℕ} {l : Returns} (hl : l ⊆ dropped) (start : ℕ)
    (head : Option FreeClass) (hle : start ≤ eoa) (hcov : ∀ x, start ≤ x → x < eoa →
      ∃ d ∈ dropped, start ≤ d.1.start ∧ d.1.stop ≤ eoa ∧ x ∈ d.1.bytes)
    (hhead : ∀ c, head = some c → ∃ e, (e, c) ∈ dropped ∧ e.start = start) :
    ∃ start' head', droppedRun start head l = (start', head') ∧ start' ≤ eoa ∧
      (∀ x, start' ≤ x → x < eoa →
        ∃ d ∈ dropped, start' ≤ d.1.start ∧ d.1.stop ≤ eoa ∧ x ∈ d.1.bytes) ∧
      ∀ c, head' = some c → ∃ e, (e, c) ∈ dropped ∧ e.start = start' := by
  induction l generalizing start head with
  | nil => exact ⟨start, head, rfl, hle, hcov, hhead⟩
  | cons d rest ih =>
    obtain ⟨e, c⟩ := d
    have hmem : (e, c) ∈ dropped := hl (by simp)
    have hpos := e.start_lt_stop
    unfold droppedRun
    split_ifs with hstop
    · exact ⟨start, head, rfl, hle, hcov, hhead⟩
    refine ih (fun _ h => hl (mem_cons_of_mem _ h)) e.start (some c) (by omega) ?_ ?_
    · intro x hx hxe
      by_cases hlt : x < start
      · exact ⟨(e, c), hmem, le_rfl, show e.stop ≤ eoa by omega, hx, show x < e.stop by omega⟩
      · obtain ⟨d, hd, hds, hde, hxd⟩ := hcov x (not_lt.mp hlt) hxe
        exact ⟨d, hd, by omega, hde, hxd⟩
    · rintro _ ⟨⟩
      exact ⟨e, hmem, rfl⟩

/-- The end of allocation moves to the page boundary at or after the start of a run of long dropped
extents, and the part of the run below it is tracked again. -/
structure GivenBack (post : PagedPostFree) (eoa : ℕ) (dropped : Returns)
    (eoa' : ℕ) (post' : PagedPostFree) : Prop where
  freed : ∀ x, eoa' ≤ x → x < eoa → ∃ d ∈ dropped, post.pageSize.get ≤ d.1.len ∧
    eoa' < d.1.start + post.pageSize.get ∧ d.1.stop ≤ eoa ∧ x ∈ d.1.bytes
  boundary : (eoa' = eoa ∧ post' = post) ∨
    ∃ start, start ≤ eoa ∧ post.pageSize.get ∣ eoa' ∧ start ≤ eoa' ∧
      eoa' < start + post.pageSize.get
  head : post' = post ∨ ∃ e c part, (e, c) ∈ dropped ∧ post.pageSize.get ≤ e.len ∧
    post.pageSize.get ∣ eoa' ∧ part.start = e.start ∧ part.stop = eoa' ∧
    eoa' < e.start + post.pageSize.get ∧ Released post [(part, c)] [] post'

lemma giveBack_exact (hcan : post.Canonical) (eoa : ℕ)
    (hdropped : ∀ d ∈ dropped, ∀ c, Disjoint (post.list c).bytes d.1.bytes) :
    ∃ eoa' post', post.giveBack eoa dropped = .ok (eoa', post') ∧
      GivenBack post eoa dropped eoa' post' := by
  obtain ⟨long, hlong⟩ : ∃ long, long =
      (dropped.filter fun entry => decide (post.pageSize.get ≤ entry.1.len)).mergeSort
        fun a b => decide (b.1.start ≤ a.1.start) := ⟨_, rfl⟩
  have hmem : ∀ d ∈ long, d ∈ dropped ∧ post.pageSize.get ≤ d.1.len := by
    intro d hd
    rwa [hlong, (mergeSort_perm _ _).mem_iff, mem_filter, decide_eq_true_eq] at hd
  obtain ⟨start, head, hrun, hle, hcov, hhead⟩ := droppedRun_spec (List.Subset.refl long) eoa none
    le_rfl (by omega) (by simp)
  have hback : ∀ x, start ≤ x → x < eoa →
      ∃ d ∈ dropped, post.pageSize.get ≤ d.1.len ∧ start ≤ d.1.start ∧ d.1.stop ≤ eoa ∧
        x ∈ d.1.bytes := by
    intro x hx hxe
    obtain ⟨d, hd, hd'⟩ := hcov x hx hxe
    exact ⟨d, (hmem d hd).1, (hmem d hd).2, hd'⟩
  unfold giveBack
  simp only [← hlong, hrun]
  cases haligned : checkedNextMultipleOf start post.pageSize.get with
  | none => exact ⟨eoa, post, rfl, by omega, .inl ⟨rfl, rfl⟩, .inl rfl⟩
  | some aligned =>
    obtain ⟨hps, hdvd, hsle, hslt, hlimit⟩ := checkedNextMultipleOf_spec haligned
    have hfreed : ∀ x, aligned ≤ x → x < eoa → ∃ d ∈ dropped, post.pageSize.get ≤ d.1.len ∧
        aligned < d.1.start + post.pageSize.get ∧ d.1.stop ≤ eoa ∧ x ∈ d.1.bytes := by
      intro x hx hxe
      obtain ⟨d, hd, hlen, hds, hd'⟩ := hback x (by omega) hxe
      exact ⟨d, hd, hlen, by omega, hd'⟩
    cases hfilter : head.filter fun _ => start != aligned with
    | none =>
      refine ⟨aligned, post, ?_, hfreed,
        .inr ⟨start, hle, hdvd, hsle, hslt⟩, .inl rfl⟩
      simp only [hfilter]
    | some c =>
      obtain ⟨rfl, hne⟩ : head = some c ∧ start ≠ aligned := by
        simpa using Option.filter_eq_some_iff.mp hfilter
      obtain ⟨e, he, rfl⟩ := hhead c rfl
      obtain ⟨hedrop, helen⟩ := hmem _ he
      have hestop := e.stop_eq
      have helimit := e.stop_lt_limit
      have helen' : post.pageSize.get ≤ e.len := helen
      obtain ⟨part, hpart, hps1, hps2⟩ := Extent.exists_between (s := e.start) (t := aligned)
        (by omega) (by omega)
      have hsub : part.bytes ⊆ e.bytes := by
        intro x hx
        rw [Extent.mem_bytes] at hx ⊢
        omega
      obtain ⟨post', htrack, hrel⟩ :=
        track_spec hcan ((hdropped _ hedrop c).mono_right hsub)
      refine ⟨aligned, post', by simp only [hfilter, hpart, expect_some, ok_bind, htrack],
        hfreed, .inr ⟨e.start, hle, hdvd, hsle, hslt⟩,
        .inr ⟨e, c, part, hedrop, helen, hdvd, hps1, hps2, hslt, hrel⟩⟩

/-! ## A whole commit -/

/-- The pages that merges completed lie in the class lists, and each holds an end of an admitted
fragment. -/
lemma pagesCompletedByMerges_exact (hcan : post.Canonical) (hdisj : post.Apart)
    (extents dropped : Returns) :
    ∃ pages, post.pagesCompletedByMerges extents dropped = .ok pages ∧ AscendingExtents pages ∧
      (∀ p ∈ pages, IsPage post.pageSize.get p) ∧
      (∀ p ∈ pages, ∀ x ∈ p.bytes, ∃ c, x ∈ (post.list c).bytes) ∧
      ∀ p ∈ pages, ∃ d ∈ extents, d ∉ dropped ∧ d.1.len < post.pageSize.get ∧
        (d.1.start ∈ p.bytes ∨ d.1.stop - 1 ∈ p.bytes) := by
  obtain ⟨runs, hruns, -, hbytes⟩ := fromLists_classes hcan hdisj
  obtain ⟨hpages, hsort⟩ := candidatePages_spec post extents dropped
  obtain ⟨hsubl, hcov⟩ := completedPages_spec (post.candidatePages extents dropped) runs.regions
  refine ⟨completedPages runs.regions (post.candidatePages extents dropped), ?_,
    ascending_of_pages (hsort.sublist hsubl) fun p hp => hpages p (hsubl.subset hp),
    fun p hp => hpages p (hsubl.subset hp), fun p hp x hx => (hbytes x).mp (hcov p hp hx),
    fun p hp => candidatePages_fragment post extents dropped (hsubl.subset hp)⟩
  simp only [pagesCompletedByMerges, hruns, ok_bind]

end PagedPostFree

/-- The page-aligned interiors of separated extents are whole pages, in order. -/
lemma interiors_spec (ps : ℕ) (hsep : SeparatedExtents runs) :
    AscendingExtents (runs.filterMap fun e => e.alignedInterior ps) ∧
      WholePages ps (covered (runs.filterMap fun e => e.alignedInterior ps)) ∧
      covered (runs.filterMap fun e => e.alignedInterior ps) ⊆ covered runs := by
  refine ⟨?_, ?_, ?_⟩
  · refine pairwise_filterMap.mpr (hsep.imp fun {a b} hab i hi j hj => ?_)
    obtain ⟨-, -, -, -, hi2, -⟩ := Extent.alignedInterior_spec hi
    obtain ⟨-, -, hj1, -, -, -⟩ := Extent.alignedInterior_spec hj
    show i.stop ≤ j.start
    omega
  · intro x hx y hy
    obtain ⟨i, hi, hxi⟩ := mem_covered.mp hx
    obtain ⟨e, -, he⟩ := mem_filterMap.mp hi
    obtain ⟨hstart, hstop, -⟩ := Extent.alignedInterior_spec he
    exact mem_covered.mpr ⟨i, hi, wholePages_Ico hstart hstop x hxi y hy⟩
  · intro x hx
    obtain ⟨i, hi, hxi⟩ := mem_covered.mp hx
    obtain ⟨e, he, hei⟩ := mem_filterMap.mp hi
    obtain ⟨-, -, h1, -, h2, -⟩ := Extent.alignedInterior_spec hei
    exact mem_covered.mpr ⟨e, he, Extent.mem_bytes.mpr ⟨by omega, by omega⟩⟩

lemma exists_alignedInterior {s t : ℕ} {e : Extent} (hps : 0 < ps) (hs : ps ∣ s) (ht : ps ∣ t)
    (hst : s < t) (hes : e.start ≤ s) (het : t ≤ e.stop) :
    ∃ i, e.alignedInterior ps = some i ∧ i.start ≤ s ∧ t ≤ i.stop := by
  have hlimit := e.stop_lt_limit
  obtain ⟨start, hstart, hle⟩ := checkedNextMultipleOf_of_le hps hes hs (by omega)
  have hstop : t ≤ e.stop / ps * ps := by
    obtain ⟨k, rfl⟩ := ht
    rw [Nat.mul_comm ps k]
    exact Nat.mul_le_mul_right ps ((Nat.le_div_iff_mul_le hps).mpr (Nat.mul_comm ps k ▸ het))
  have hdiv : e.stop / ps * ps ≤ e.stop := Nat.div_mul_le_self _ _
  obtain ⟨i, hi, his, hit⟩ := Extent.exists_between (s := start) (t := e.stop / ps * ps)
    (by omega) (by omega)
  refine ⟨i, ?_, by omega, by omega⟩
  rw [Extent.alignedInterior, if_neg hps.ne', hstart]
  exact hi

/-- The interiors of separated extents are the whole pages that these cover. -/
lemma covered_interiors (hps : 0 < ps) (hsep : SeparatedExtents runs) :
    covered (runs.filterMap fun e => e.alignedInterior ps) = pagesWithin ps (covered runs) := by
  obtain ⟨-, hwhole, hcov⟩ := interiors_spec ps hsep
  apply Set.Subset.antisymm
  · intro x hx y hy
    exact hcov (hwhole x hx y hy)
  · intro x hx
    have hmod := Nat.mod_lt x hps
    have hdiv := Nat.div_add_mod x ps
    have hpage : Set.Ico (ps * (x / ps)) (ps * (x / ps) + ps) ⊆ covered runs := by
      rintro y ⟨hy, hy'⟩
      refine hx y ?_
      exact Nat.div_eq_of_lt_le (by rw [Nat.mul_comm]; exact hy)
        (by rw [Nat.add_mul, Nat.one_mul, Nat.mul_comm]; exact hy')
    obtain ⟨r, hr, hstart, hstop⟩ := hsep.exists_of_Ico_subset (by omega) hpage
    obtain ⟨i, hi, his, hit⟩ := exists_alignedInterior hps (Nat.dvd_mul_right ps (x / ps))
      (Nat.dvd_add (Nat.dvd_mul_right ps (x / ps)) (dvd_refl ps)) (by omega) hstart hstop
    exact mem_covered.mpr ⟨i, mem_filterMap.mpr ⟨r, hr, hi⟩, by omega, by omega⟩

/-- The bytes of a class after promotion: the whole free pages leave their classes and join raw
space. -/
def promotedBytes (ps : ℕ) (lists : FreeClass → Set ℕ) (c : FreeClass) : Set ℕ :=
  (lists c \ pagesWithin ps {x | ∃ c, x ∈ lists c}) ∪
    {x | c = .page .raw ∧ x ∈ pagesWithin ps {x | ∃ c, x ∈ lists c}}

lemma exists_mem_promotedBytes {x : ℕ} :
    (∃ c, x ∈ promotedBytes ps lists c) ↔ ∃ c, x ∈ lists c := by
  constructor
  · rintro ⟨c, hx | ⟨-, hx⟩⟩
    · exact ⟨c, hx.1⟩
    · exact pagesWithin_subset _ _ hx
  · rintro ⟨c, hx⟩
    by_cases hxp : x ∈ pagesWithin ps {x | ∃ c, x ∈ lists c}
    · exact ⟨.page .raw, .inr ⟨rfl, hxp⟩⟩
    · exact ⟨c, .inl ⟨hx, hxp⟩⟩

lemma promotedBytes_disjoint (hd : ∀ c c', c ≠ c' → Disjoint (lists c) (lists c'))
    {c c' : FreeClass} (hne : c ≠ c') :
    Disjoint (promotedBytes ps lists c) (promotedBytes ps lists c') := by
  rw [Set.disjoint_left]
  rintro x (hx | ⟨rfl, hx⟩) (hx' | ⟨rfl, hx'⟩)
  · exact Set.disjoint_left.mp (hd c c' hne) hx.1 hx'.1
  · exact hx.2 hx'
  · exact hx'.2 hx
  · exact hne rfl

lemma PagedEdit.promoteWholeFreePages_exact {post : PagedPostFree}
    (hcan : post.Canonical) (hdisjoint : post.Apart) :
    ∃ post', PagedEdit.promoteWholeFreePages post = .ok post' ∧
      post'.pageSize = post.pageSize ∧ post'.unclassified = post.unclassified ∧
      post'.Canonical ∧
      ∀ c, (post'.list c).bytes =
        promotedBytes post.pageSize.get (fun c => (post.list c).bytes) c := by
  have hps := post.pageSize.get_pos
  obtain ⟨runs, hruns, hrcan, hrbytes⟩ := PagedPostFree.fromLists_classes hcan hdisjoint
  obtain ⟨hasc, -, -⟩ := interiors_spec post.pageSize.get hrcan.separated
  obtain ⟨pages, hpages, hpcan, hpbytes⟩ := FreeList.fromSorted_of_ascending hasc
  rw [covered_interiors hps hrcan.separated] at hpbytes
  have hunionEq : covered runs.regions = {x | ∃ c, x ∈ (post.list c).bytes} := by
    ext x
    exact hrbytes x
  rw [hunionEq] at hpbytes
  unfold promotedBytes
  rw [← hpbytes]
  obtain ⟨metadata, raw, dead, hm, hw, hdd, hlists⟩ := PagedPostFree.takeRanges_spec hcan hpcan
  have hrawcan : raw.Canonical := (hlists (.page .raw)).1
  have hrawbytes : raw.bytes = post.raw.bytes \ pages.bytes := (hlists (.page .raw)).2
  have hcans : ∀ l ∈ [raw, pages], l.Canonical := by simpa using ⟨hrawcan, hpcan⟩
  have hdisj : Disjoint raw.bytes pages.bytes := by
    rw [hrawbytes]
    exact Set.disjoint_sdiff_left
  obtain ⟨raw', hraw', hraw'can, hraw'bytes⟩ :=
    FreeList.fromLists_of_disjoint hcans (by simpa using hdisj)
  have hunion : raw'.bytes = (post.raw.bytes \ pages.bytes) ∪ pages.bytes := by
    rw [hraw'bytes, ← hrawbytes]
    ext x
    simp [FreeList.unionBytes]
  refine ⟨{ post with metadata := metadata, raw := raw', dead := dead }, ?_, rfl, rfl, ?_, ?_⟩
  · simp only [promoteWholeFreePages, hruns, hpages, hm, hw, hdd, hraw', ok_bind]
  · exact FreeClass.forall_iff.mpr ⟨(hlists .dead).1, (hlists (.page .metadata)).1, hraw'can⟩
  · refine FreeClass.forall_iff.mpr ⟨?_, ?_, ?_⟩
    · simpa [PagedPostFree.list] using (hlists .dead).2
    · simpa [PagedPostFree.list] using (hlists (.page .metadata)).2
    · simpa [PagedPostFree.list] using hunion

end Hdf5Pure.Space
