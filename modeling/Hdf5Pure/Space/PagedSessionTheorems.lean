import Hdf5Pure.Space.PostFreeTheorems

/-!
# Metadata and raw data stay on separate pages

The type of a page is stored nowhere. The invariant of a session says that live bytes, reusable
bytes and recorded padding of one type lie on pages without bytes of the other.
-/

namespace Hdf5Pure.Space

open List hiding Disjoint

open Checked IntervalLists PagedPostFree

/-! ## The invariant -/

variable {d : Extent × PageType} {e : Extent} {ty : PageType}

namespace PagedSession

def liveBytes (s : PagedSession) (ty : PageType) : Set ℕ := {x | ∃ e, (e, ty) ∈ s.live ∧ x ∈ e.bytes}

def owned (s : PagedSession) (ty : PageType) : Set ℕ := s.paged.holds (.page ty) ∪ s.liveBytes ty

structure Inv (s : PagedSession) : Prop where
  apart : s.paged.Apart
  live : s.live.Pairwise fun a b => Disjoint a.1.bytes b.1.bytes
  free : ∀ d ∈ s.live, ∀ c, Disjoint (s.paged.holds c) d.1.bytes
  pages : PageOwnership s.paged.pageSize.get s.owned s.eoa s.paged.last
  dead : ∀ x ∈ s.paged.dead.bytes, x < s.eoa

lemma inv_start {pageSize : FileSpacePageSize} {eoa : ℕ} (h : pageSize.get ∣ eoa) :
    (start pageSize eoa).Inv := by
  refine ⟨PagedEdit.apart_new pageSize, List.Pairwise.nil, by simp [start], ?_, by simp [start,
    PagedEdit.new]⟩
  refine (PageOwnership.empty h).mono fun ty => ?_
  rintro x ((hx | hx) | ⟨e, he, -⟩)
  · cases ty <;> simp [start, PagedEdit.new, PagedEdit.list] at hx
  · cases ty <;> simp [start, PagedEdit.new, PagedEdit.pad] at hx
  · simp [start] at he

section

variable {s : PagedSession} (h : s.Inv)

include h

lemma Inv.holds_below (c : FreeClass) : ∀ x ∈ s.paged.holds c, x < s.eoa := by
  intro x hx
  rcases c with _ | ty
  · exact h.dead x hx
  · exact h.pages.below ty x (.inl hx)

lemma Inv.live_below (hd : d ∈ s.live) : ∀ x ∈ d.1.bytes, x < s.eoa :=
  fun x hx => h.pages.below d.2 x (.inr ⟨d.1, hd, hx⟩)

lemma Inv.fresh (hstart : e.start = s.eoa) :
    (∀ c, Disjoint (s.paged.holds c) e.bytes) ∧ ∀ d ∈ s.live, Disjoint e.bytes d.1.bytes := by
  have hbelow : ∀ {b : Set ℕ}, (∀ x ∈ b, x < s.eoa) → Disjoint b e.bytes := by
    intro b hb
    rw [Set.disjoint_left]
    intro x hx hxe
    have := hb x hx
    rw [Extent.mem_bytes] at hxe
    omega
  exact ⟨fun c => hbelow (h.holds_below c), fun d hd => (hbelow (h.live_below hd)).symm⟩

/-- Padding from an unaligned end of allocation to the page boundary belongs to the type of the
last append. -/
lemma Inv.recordPadding (hstart : e.start = s.eoa) (hnot : ¬ s.paged.pageSize.get ∣ s.eoa) :
    Inv ⟨s.paged.recordPadding e s.paged.last, e.stop, s.live⟩ := by
  obtain ⟨ty, hlast, -⟩ := h.pages.tail hnot
  obtain ⟨hfree, hfreelive⟩ := h.fresh hstart
  have hle : s.eoa ≤ e.stop := hstart ▸ e.start_lt_stop.le
  rw [hlast]
  obtain ⟨hapart, hholds, hholds'⟩ := h.apart.recordPadding hfree ty
  obtain ⟨hps, hl, hdead⟩ := s.paged.recordPadding_frame e (some ty)
  refine ⟨hapart, h.live, ?_, ?_, ?_⟩
  · intro d hd c
    show Disjoint ((s.paged.recordPadding e (some ty)).holds c) _
    by_cases hc : c = .page ty
    · subst hc
      rw [hholds, Set.disjoint_union_left]
      exact ⟨h.free d hd _, hfreelive d hd⟩
    · rw [hholds' c hc]
      exact h.free d hd c
  · show PageOwnership (s.paged.recordPadding e (some ty)).pageSize.get _ e.stop
      (s.paged.recordPadding e (some ty)).last
    rw [hps, hl, hlast]
    have hpos := s.paged.pageSize.get_pos
    refine h.pages.append hpos (.inr hlast) hle ?_ ?_
    · rw [owned, owned, hholds, Extent.bytes_eq, hstart, Set.union_right_comm]
      rfl
    · rw [owned, hholds' _ (by simpa using (PageType.ne_other ty).symm)]
      rfl
  · intro x hx
    rw [hdead] at hx
    exact (h.dead x hx).trans_le hle

/-- The tail page takes the type of an append, at a page boundary or if it has it already. -/
lemma Inv.setLast (hok : s.paged.pageSize.get ∣ s.eoa ∨ s.paged.last = some ty) :
    Inv ⟨{ s.paged with last := some ty }, s.eoa, s.live⟩ := by
  refine ⟨⟨h.apart.canonical, h.apart.dead, h.apart.unclassified, h.apart.pads, h.apart.padFree,
    h.apart.classes⟩, h.live, h.free, ?_, h.dead⟩
  rcases hok with hdvd | hlast
  · exact h.pages.setEoa hdvd h.pages.below (some ty)
  · rw [← hlast]
    exact h.pages

lemma Inv.appendLive (hlast : s.paged.last = some ty) (hstart : e.start = s.eoa) :
    Inv ⟨s.paged, e.stop, (e, ty) :: s.live⟩ := by
  obtain ⟨hfree, hfreelive⟩ := h.fresh hstart
  have hle : s.eoa ≤ e.stop := hstart ▸ e.start_lt_stop.le
  refine ⟨h.apart, pairwise_cons.mpr ⟨hfreelive, h.live⟩, ?_, ?_, ?_⟩
  · exact forall_mem_cons.mpr ⟨hfree, h.free⟩
  · have hpos := s.paged.pageSize.get_pos
    show PageOwnership s.paged.pageSize.get (owned ⟨s.paged, e.stop, (e, ty) :: s.live⟩) e.stop
      s.paged.last
    rw [hlast]
    refine h.pages.append hpos (.inr hlast) hle ?_ ?_
    · rw [← hstart, ← Extent.bytes_eq]
      rintro x (hx | ⟨e', he', hx⟩)
      · exact .inl (.inl hx)
      · grind [owned, liveBytes]
    · rintro x (hx | ⟨e', he', hx⟩)
      · exact .inl hx
      · grind [owned, liveBytes, PageType.ne_other]
  · intro x hx
    exact (h.dead x hx).trans_le hle

lemma Inv.serve {result : Option Extent} {paged' : PagedEdit}
    (hs : s.paged.Serves ty result paged') : (s.take ty (result, paged')).2.Inv := by
  have hapart := h.apart.serves hs
  obtain ⟨-, w, hw, hwsub, hown, hother, hgiven, -⟩ := h.apart.separate.serves hs
  obtain ⟨hheld, hgivenheld, hgivenout⟩ := h.apart.separate.serves_holds hs
  obtain ⟨hps, hdead, -, hlast, -⟩ := hs.same
  have hwhold : w ⊆ s.paged.holds (.page ty.other) :=
    hwsub.trans (PagedEdit.list_subset_holds _ _)
  have hmem : ∀ d ∈ result.toList.map (·, ty), d.2 = ty ∧ d.1.bytes ⊆ covered result.toList :=
    forall_mem_map.mpr fun e he => ⟨rfl, bytes_subset_covered he⟩
  refine ⟨hapart, ?_, ?_, ?_, ?_⟩
  · refine pairwise_append.mpr ⟨?_, h.live, ?_⟩
    · cases result with
      | none => exact List.Pairwise.nil
      | some a => exact pairwise_singleton _ _
    · intro d hd d' hd'
      rw [Set.disjoint_left]
      intro x hx
      obtain ⟨c, hc⟩ := hgivenheld x ((hmem d hd).2 hx)
      exact Set.disjoint_left.mp (h.free d' hd' (.page c)) hc
  · refine forall_mem_append.mpr
      ⟨fun d hd c => (hgivenout c).mono_right (hmem d hd).2, fun d hd c => ?_⟩
    rw [Set.disjoint_left]
    intro x hx
    obtain ⟨c', hc'⟩ := hheld c x hx
    exact Set.disjoint_left.mp (h.free d hd c') hc'
  · show PageOwnership paged'.pageSize.get _ s.eoa paged'.last
    rw [hps, hlast]
    refine h.pages.takePages hw (fun x hx => h.holds_below _ x (hwhold hx)) ty ?_ ?_
    · have hsub : s.paged.holds (.page ty) ∪ w ⊆ s.owned ty ∪ w :=
        Set.union_subset_union_left _ Set.subset_union_left
      rintro x (hx | ⟨e, he, hx⟩)
      · exact hsub (hown hx)
      · rcases mem_append.mp he with he | he
        · exact hsub (hgiven ((hmem _ he).2 hx))
        · exact .inl (.inr ⟨e, he, hx⟩)
    · rintro x (hx | ⟨e, he, hx⟩)
      · exact ⟨.inl (hother hx).1, (hother hx).2⟩
      · rcases mem_append.mp he with he | he
        · exact absurd (hmem _ he).1.symm (PageType.ne_other ty)
        · exact ⟨.inr ⟨e, he, hx⟩, fun hxw =>
            Set.disjoint_left.mp (h.free _ he _) (hwhold hxw) hx⟩
  · intro x hx
    replace hx : x ∈ paged'.dead.bytes := hx
    rw [hdead] at hx
    exact h.dead x hx

lemma Inv.returnAllocation (hmem : (e, ty) ∈ s.live) :
    ∃ paged', s.paged.returnAllocation e ty = .ok paged' ∧
      Inv ⟨paged', s.eoa, s.live.filter fun entry => entry.1 ≠ e⟩ := by
  obtain ⟨paged', hret, hapart, ⟨hps, hlast, hdead⟩, hholds, hholds'⟩ :=
    h.apart.returnAllocation (h.free _ hmem) ty
  have hkept : ∀ d ∈ s.live.filter (fun entry => entry.1 ≠ e), d ∈ s.live ∧
      Disjoint e.bytes d.1.bytes := by
    intro d hd
    obtain ⟨hd, hne⟩ := mem_filter.mp hd
    refine ⟨hd, h.live.forall hmem hd fun heq => ?_⟩
    rw [← heq] at hne
    simp at hne
  refine ⟨paged', hret, hapart, h.live.sublist filter_sublist, ?_, ?_, ?_⟩
  · intro d hd c
    obtain ⟨hd, hde⟩ := hkept d hd
    by_cases hc : c = .page ty
    · subst hc
      show Disjoint (paged'.holds _) _
      rw [hholds, Set.disjoint_union_left]
      exact ⟨h.free d hd _, hde⟩
    · show Disjoint (paged'.holds _) _
      rw [hholds' c hc]
      exact h.free d hd c
  · show PageOwnership paged'.pageSize.get _ s.eoa paged'.last
    rw [hps, hlast]
    -- the extent stays with its type
    refine h.pages.mono fun t => ?_
    rintro x (hx | ⟨e', he', hx⟩)
    · replace hx : x ∈ paged'.holds (.page t) := hx
      rcases PageType.eq_or_eq_other ty t with rfl | rfl
      · rw [hholds] at hx
        exact hx.imp id fun hx => ⟨e, hmem, hx⟩
      · rw [hholds' _ (by simpa using (PageType.ne_other ty).symm)] at hx
        exact .inl hx
    · exact .inr ⟨e', (hkept _ he').1, hx⟩
  · intro x hx
    rw [hdead] at hx
    exact h.dead x hx

/-! ### Commits -/

section

variable {threshold : ℕ} {freed : Returns} {oldBlocks : List Extent}
  (hguard : s.Contract (.commit threshold freed oldBlocks))

include hguard

lemma Inv.returned_disjoint : DisjointReturns (returned freed oldBlocks) := by
  refine (pairwise_map.mp hguard.1).imp_of_mem fun {a b} ha hb hne => ?_
  obtain ⟨ta, hta, -⟩ := hguard.2 a ha
  obtain ⟨tb, htb, -⟩ := hguard.2 b hb
  exact h.live.forall hta htb fun heq => hne (Prod.mk.inj heq).1

omit h in
/-- Freed bytes stay with their page type or become dead space. -/
lemma commitBytes_page (ty : PageType) :
    s.paged.commitBytes (returned freed oldBlocks) (.page ty) ⊆ s.owned ty := by
  rintro x (hx | ⟨e, he, hx⟩)
  · exact .inl hx
  · obtain ⟨t, ht, hclass⟩ := hguard.2 _ he
    have : ty = t := by simpa using hclass
    exact .inr ⟨e, this ▸ ht, hx⟩

lemma Inv.commitBytes_below (c : FreeClass) :
    ∀ x ∈ s.paged.commitBytes (returned freed oldBlocks) c, x < s.eoa := by
  rintro x (hx | ⟨e, he, hx⟩)
  · exact h.holds_below c x hx
  · obtain ⟨t, ht, -⟩ := hguard.2 _ he
    exact h.live_below ht x hx

/-- What stays live is no part of the commit. -/
lemma Inv.kept_disjoint
    (hd : d ∈ s.live.filter fun entry => entry.1 ∉ (returned freed oldBlocks).map Prod.fst) :
    d ∈ s.live ∧ ∀ c, Disjoint (s.paged.commitBytes (returned freed oldBlocks) c) d.1.bytes := by
  rw [mem_filter, decide_eq_true_eq] at hd
  refine ⟨hd.1, fun c => ?_⟩
  rw [PagedEdit.commitBytes, Set.disjoint_union_left]
  refine ⟨h.free d hd.1 c, (PagedEdit.disjoint_classBytes_right (fun e he => ?_) c).symm⟩
  obtain ⟨t, ht, -⟩ := hguard.2 e he
  exact h.live.forall hd.1 ht fun heq => hd.2 (heq ▸ mem_map_of_mem he)

/-- The page types after a commit: raw space may have got whole pages. -/
lemma Inv.commit_pages {post : PagedPostFree} {live : List (Extent × PageType)}
    {owned' : PageType → Set ℕ} (hps : post.pageSize = s.paged.pageSize)
    (htracked : post.Tracked (s.paged.commitBytes (returned freed oldBlocks)))
    (hlive : live = s.live.filter fun entry => entry.1 ∉ (returned freed oldBlocks).map Prod.fst)
    (howned : ∀ ty, ∀ x ∈ owned' ty,
      x ∈ (post.list (.page ty)).bytes ∨ ∃ e, (e, ty) ∈ live ∧ x ∈ e.bytes) :
    PageOwnership s.paged.pageSize.get owned' s.eoa s.paged.last := by
  have hsub := pagesWithin_subset s.paged.pageSize.get post.raw.bytes
  refine h.pages.takePages (wholePages_pagesWithin _ post.raw.bytes) ?_ .raw ?_ ?_
  · intro x hx
    obtain ⟨c, hc⟩ := htracked.within (.page .raw) (hsub hx)
    exact h.commitBytes_below hguard c x hc
  · intro x hx
    rcases howned _ x hx with hx | ⟨e, he, hx⟩
    · rcases htracked.raw x hx with hx | hx
      · exact .inl (commitBytes_page hguard .raw hx)
      · rw [hps] at hx
        exact .inr hx
    · exact .inl (.inr ⟨e, (h.kept_disjoint hguard (hlive ▸ he)).1, hx⟩)
  · intro x hx
    rcases howned _ x hx with hx | ⟨e, he, hx⟩
    · refine ⟨commitBytes_page hguard .metadata (htracked.owned _ (by simp) hx), fun hxw => ?_⟩
      exact Set.disjoint_left.mp (htracked.disjoint (.page .metadata) (.page .raw) (by simp)) hx
        (hsub hxw)
    · obtain ⟨hmem, hout⟩ := h.kept_disjoint hguard (hlive ▸ he)
      refine ⟨.inr ⟨e, hmem, hx⟩, fun hxw => ?_⟩
      obtain ⟨c, hc⟩ := htracked.within (.page .raw) (hsub hxw)
      exact Set.disjoint_left.mp (hout c) hc hx

lemma Inv.commit : ∃ r s', s.step (.commit threshold freed oldBlocks) = .ok (r, s') ∧ s'.Inv := by
  obtain ⟨post, eoa', hpost, htracked, hps, hunc, heoa, hfreed⟩ :=
    PagedEdit.postFree_spec h.apart threshold s.eoa (h.returned_disjoint hguard)
      fun d hd c => by
        obtain ⟨ty, hty, -⟩ := hguard.2 d hd
        exact h.free _ hty c
  obtain ⟨live', hlive'⟩ : ∃ live', live' =
    s.live.filter fun entry => entry.1 ∉ (returned freed oldBlocks).map Prod.fst := ⟨_, rfl⟩
  obtain ⟨paged', hpaged⟩ : ∃ paged', paged' = ({ s.paged with
    metadata := post.metadata, raw := post.raw, dead := post.dead, unclassified := post.unclassified,
    metaPad := [], rawPad := [] } : PagedEdit) := ⟨_, rfl⟩
  have hstep : s.step (.commit threshold freed oldBlocks) = .ok (none, ⟨paged', eoa', live'⟩) := by
    simp only [step, hpost, ok_bind, PagedEdit.adoptPostFree, hpaged, hlive']
    rfl
  have hpad : ∀ t, paged'.pad t = [] := by
    rw [hpaged]
    rintro (_ | _) <;> rfl
  have hlist : ∀ t, paged'.list t = post.list (.page t) := by
    rw [hpaged]
    rintro (_ | _) <;> rfl
  have hholds : ∀ c, paged'.holds c = (post.list c).bytes := by
    rintro (_ | t)
    · rw [hpaged]
      rfl
    · rw [PagedEdit.holds, hpad, hlist, covered_nil, Set.union_empty]
  have hpages : PageOwnership s.paged.pageSize.get (owned ⟨paged', eoa', live'⟩) s.eoa
      s.paged.last := by
    exact h.commit_pages hguard hps htracked hlive' fun ty x hx =>
      hx.imp (fun hx => hholds (.page ty) ▸ hx) id
  have happart : paged'.Apart := by
    refine ⟨fun t => hlist t ▸ htracked.canonical _, ?_, ?_, by simp [hpad], by simp [hpad], ?_⟩
    · rw [hpaged]
      exact htracked.canonical .dead
    · rw [hpaged]
      exact hunc.trans h.apart.unclassified
    · intro c c' hne
      rw [hholds, hholds]
      exact htracked.disjoint c c' hne
  -- a byte above the new end of allocation is freed and not tracked
  have hgone : ∀ c, ∀ x ∈ paged'.holds c, x < s.eoa → x < eoa' := by
    intro c x hx hxe
    by_contra hge
    rw [hholds] at hx
    exact (hfreed x (not_lt.mp hge) hxe).2 c hx
  refine ⟨none, ⟨paged', eoa', live'⟩, hstep, happart, ?_, ?_, ?_, ?_⟩
  · exact h.live.sublist (hlive' ▸ filter_sublist)
  · intro d hd c
    rw [Set.disjoint_left]
    intro x hx hxd
    obtain ⟨c', hx'⟩ := htracked.within c (hholds c ▸ hx)
    exact Set.disjoint_left.mp ((h.kept_disjoint hguard (hlive' ▸ hd)).2 c') hx' hxd
  · have hps' : paged'.pageSize = s.paged.pageSize := by rw [hpaged]
    have hlast : paged'.last = s.paged.last := by rw [hpaged]
    show PageOwnership paged'.pageSize.get _ eoa' paged'.last
    rw [hps', hlast]
    rcases heoa with rfl | hdvd
    · exact hpages
    refine hpages.setEoa hdvd (fun t x hx => ?_) _
    have hxe := hpages.below t x hx
    rcases hx with hx | ⟨e, he, hx⟩
    · exact hgone _ x hx hxe
    · by_contra hge
      obtain ⟨c, hc⟩ := (hfreed x (not_lt.mp hge) hxe).1
      exact Set.disjoint_left.mp ((h.kept_disjoint hguard (hlive' ▸ he)).2 c) hc hx
  · intro x hx
    replace hx : x ∈ paged'.holds .dead := hx
    apply hgone .dead x hx
    rw [hholds] at hx
    exact h.commitBytes_below hguard .dead x (htracked.owned .dead (by simp) hx)

end

/-! ## Runs -/

lemma Inv.append (len : ℕ) (ty : PageType) : (s.append len ty).2.Inv := by
  -- once the transition is recorded, the tail page has the type of the append
  have hrecord : ∀ transition, s.paged.planTransition s.eoa ty = .ok transition →
      Inv ⟨s.paged.recordTransition ty transition, transition.eoaAfter s.eoa, s.live⟩ := by
    intro transition hplan
    unfold PagedEdit.planTransition at hplan
    split_ifs at hplan with hok
    · cases hplan
      exact h.setLast (hok.imp Nat.dvd_of_mod_eq_zero id)
    · obtain ⟨e, rfl, hstart, hstop⟩ := PagedEdit.padTo_spec hplan
      have hnot : ¬ s.paged.pageSize.get ∣ s.eoa := fun hdvd =>
        hok (.inl (Nat.mod_eq_zero_of_dvd hdvd))
      apply (h.recordPadding hstart hnot).setLast
      left
      rw [(s.paged.recordPadding_frame _ _).1]
      exact hstop
  unfold PagedSession.append
  cases hplan : s.paged.planTransition s.eoa ty with
  | error err => exact h
  | ok transition =>
    have hrec := hrecord transition hplan
    simp only
    cases hnew : Extent.new (transition.eoaAfter s.eoa) len with
    | none => exact hrec
    | some e => exact hrec.appendLive rfl (Extent.new_eq_some.mp hnew).1

lemma Inv.padPage : s.padPage.Inv := by
  unfold PagedSession.padPage PagedEdit.pagePadding
  by_cases hmod : s.eoa % s.paged.pageSize.get = 0
  · rw [if_pos hmod]
    exact h
  rw [if_neg hmod]
  cases hplan : s.paged.padTo s.eoa with
  | error err => exact h
  | ok transition =>
    obtain ⟨e, rfl, hstart, -⟩ := PagedEdit.padTo_spec hplan
    exact h.recordPadding hstart fun hdvd => hmod (Nat.mod_eq_zero_of_dvd hdvd)

/-- Every call that meets its contract returns and keeps the invariant. -/
lemma Inv.step (op : PagedOp) (hguard : s.Contract op) :
    ∃ r s', s.step op = .ok (r, s') ∧ s'.Inv := by
  match op with
  | .append len ty => exact ⟨_, _, rfl, h.append len ty⟩
  | .padPage => exact ⟨_, _, rfl, h.padPage⟩
  | .allocate len ty =>
    obtain ⟨result, paged', halloc, hs, -⟩ :=
      PagedEdit.allocate_serves h.apart.canonical h.apart.separate.list_disjoint len ty
    refine ⟨result, _, ?_, h.serve hs⟩
    simp only [PagedSession.step, halloc, ok_bind]
    rfl
  | .allocateBlock request =>
    obtain ⟨result, paged', halloc, hs, -⟩ :=
      PagedEdit.allocateBlock_serves h.apart.canonical h.apart.separate.list_disjoint request
    refine ⟨result, _, ?_, h.serve hs⟩
    simp only [PagedSession.step, halloc, ok_bind]
    rfl
  | .returnAllocation e ty =>
    obtain ⟨paged', hret, hinv⟩ := h.returnAllocation hguard
    exact ⟨none, _, by simp only [PagedSession.step, hret, ok_bind], hinv⟩
  | .commit threshold freed oldBlocks => exact h.commit hguard

end

/-- No page has live bytes of both types, no byte is live twice or live and free, and the free lists
are disjoint. -/
structure Separated (s : PagedSession) : Prop where
  pages : ∀ e f, (e, .metadata) ∈ s.live → (f, .raw) ∈ s.live →
    ∀ x ∈ e.bytes, ∀ y ∈ f.bytes, x / s.paged.pageSize.get ≠ y / s.paged.pageSize.get
  once : s.live.Pairwise fun a b => Disjoint a.1.bytes b.1.bytes
  unused : ∀ d ∈ s.live, ∀ l ∈ s.lists, Disjoint d.1.bytes l.bytes
  lists : s.lists.Pairwise fun a b => Disjoint a.bytes b.bytes

lemma Inv.separated {s : PagedSession} (h : s.Inv) : s.Separated := by
  have hmeta := PagedEdit.list_subset_holds s.paged .metadata
  have hraw := PagedEdit.list_subset_holds s.paged .raw
  have hunc : s.paged.unclassified.bytes = ∅ := by rw [h.apart.unclassified, FreeList.bytes_new]
  have hclass := h.apart.classes
  refine ⟨?_, h.live, ?_, ?_⟩
  · intro e f he hf x hx y hy
    exact h.pages.apart .metadata x (.inr ⟨e, he, hx⟩) y (.inr ⟨f, hf, hy⟩)
  · intro d hd l hl
    have hfree := h.free d hd
    simp only [PagedSession.lists, mem_cons, not_mem_nil, or_false] at hl
    rcases hl with rfl | rfl | rfl | rfl
    · exact ((hfree (.page .metadata)).mono_left hmeta).symm
    · exact ((hfree (.page .raw)).mono_left hraw).symm
    · exact (hfree .dead).symm
    · rw [hunc]
      exact Set.disjoint_empty _
  · simp only [PagedSession.lists, pairwise_cons, mem_cons, not_mem_nil, or_false,
      forall_eq_or_imp, forall_eq, hunc, Set.disjoint_empty, and_true, IsEmpty.forall_iff,
      implies_true, List.Pairwise.nil]
    exact ⟨⟨(hclass _ _ (by simp)).mono hmeta hraw, (hclass _ .dead (by simp)).mono_left hmeta⟩,
      (hclass _ .dead (by simp)).mono_left hraw⟩

/-- **PAGE separation.** From a session without free space at a page-aligned end of allocation,
every run of calls within their contracts returns, and ends in a separated state. -/
theorem run_separated (pageSize : FileSpacePageSize) (eoa : ℕ) (ops : List PagedOp)
    (haligned : pageSize.get ∣ eoa)
    (hrun : AllowedRun step Contract (start pageSize eoa) ops) :
    ∃ results s, runAll step (start pageSize eoa) ops = .ok (results, s) ∧ s.Separated := by
  obtain ⟨results, s, hok, hinv⟩ :=
    hrun.invariant Inv (fun s op hs hop => hs.step op hop) (inv_start haligned)
  exact ⟨results, s, hok, hinv.separated⟩

/-- Metadata and raw data are appended, and the metadata is freed at a commit. -/
theorem run_separated_appends :
    ∃ results s, runAll step (start ⟨512, by decide, by decide⟩ 512)
      [.append 100 .metadata, .append 200 .raw,
        .commit 1 [(⟨512, 100, by decide, by decide⟩, .page .metadata)] []] = .ok (results, s) ∧
      s.Separated := by
  refine run_separated ⟨512, by decide, by decide⟩ 512 _ (by decide) ?_
  refine .cons rfl trivial (.cons rfl trivial ⟨⟨by simp [returned], ?_⟩, fun _ _ _ => trivial⟩)
  simp only [returned, map_nil, append_nil, mem_singleton, forall_eq]
  exact ⟨.metadata, by decide, .inl rfl⟩

end PagedSession

end Hdf5Pure.Space
