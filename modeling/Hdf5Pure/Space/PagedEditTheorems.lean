import Hdf5Pure.Space.PagedTheorems
import Hdf5Pure.Space.ReservationTheorems

/-!
# The bytes of a PAGE session

What padding, allocations, returns and commits do to the bytes that each class of a session holds:
its free list, and for a page type the padding that the next commit adds to it.
-/

namespace Hdf5Pure.Space

open Checked IntervalLists PagedPostFree

/-! ## Allocation in terms of bytes -/

variable {paged' : PagedEdit} {e : Extent}

namespace PagedEdit

@[simp] lemma withLists_list (paged : PagedEdit) (ty : PageType) (own other : FreeList) :
    (paged.withLists ty own other).list ty = own := by cases ty <;> rfl

@[simp] lemma withLists_list_other (paged : PagedEdit) (ty : PageType) (own other : FreeList) :
    (paged.withLists ty own other).list ty.other = other := by cases ty <;> rfl

/-- A PAGE allocation takes whole pages over from the other type, and its extent from what its own
type then has. -/
structure Serves (paged : PagedEdit) (ty : PageType) (result : Option Extent)
    (paged' : PagedEdit) : Prop where
  frame : paged' = paged.withLists ty (paged'.list ty) (paged'.list ty.other)
  canonical : ∀ t, (paged'.list t).Canonical
  pages : ∃ w, WholePages paged.pageSize.get w ∧ w ⊆ (paged.list ty.other).bytes ∧
    (paged'.list ty.other).bytes = (paged.list ty.other).bytes \ w ∧
    covered result.toList ⊆ (paged.list ty).bytes ∪ w ∧
    (paged'.list ty).bytes = ((paged.list ty).bytes ∪ w) \ covered result.toList

variable {paged : PagedEdit} {ty : PageType} {result : Option Extent}

lemma serves_withLists {own other : FreeList} (hown : own.Canonical) (hother : other.Canonical)
    (hpages : ∃ w, WholePages paged.pageSize.get w ∧ w ⊆ (paged.list ty.other).bytes ∧
      other.bytes = (paged.list ty.other).bytes \ w ∧
      covered result.toList ⊆ (paged.list ty).bytes ∪ w ∧
      own.bytes = ((paged.list ty).bytes ∪ w) \ covered result.toList) :
    paged.Serves ty result (paged.withLists ty own other) := by
  exact ⟨by simp, PageType.forall ty (by simpa using hown) (by simpa using hother),
    by simpa using hpages⟩

lemma serves_own {own : FreeList} (len : ℕ) (hown : own.Canonical)
    (hother : (paged.list ty.other).Canonical) (heff : (paged.list ty).Allocates len result own) :
    paged.Serves ty result (paged.withLists ty own (paged.list ty.other)) := by
  refine serves_withLists hown hother ⟨∅, by simp [WholePages], by simp, by simp, ?_⟩
  cases result with
  | none =>
    obtain rfl : own = paged.list ty := heff
    simp
  | some a => simpa using ⟨heff.2.1, heff.2.2⟩

lemma serves_claimed {own other : FreeList} {a c : Extent} (hown : own.Canonical)
    (hother : other.Canonical) (hpages : WholePages paged.pageSize.get c.bytes)
    (hcsub : c.bytes ⊆ (paged.list ty.other).bytes)
    (hobytes : other.bytes = (paged.list ty.other).bytes \ c.bytes) (hasub : a.bytes ⊆ c.bytes)
    (hbytes : own.bytes = ((paged.list ty).bytes ∪ c.bytes) \ a.bytes) :
    paged.Serves ty (some a) (paged.withLists ty own other) := by
  refine serves_withLists hown hother ⟨c.bytes, hpages, hcsub, hobytes, ?_, ?_⟩
  · rw [Option.toList_some, covered_singleton]
    exact hasub.trans Set.subset_union_right
  · rw [Option.toList_some, covered_singleton]
    exact hbytes

lemma exists_claimed {own other : FreeList} (hown : own.Canonical) (hother : other.Canonical)
    (hd : Disjoint own.bytes other.bytes) {ps len span : ℕ}
    (hspan : checkedNextMultipleOf len ps = some span) :
    ∃ claimed other', other.allocWholeUnits span ps = .ok (claimed, other') ∧ other'.Canonical ∧
      (claimed = none → other' = other) ∧
      ∀ c, claimed = some c → WholePages ps c.bytes ∧ c.bytes ⊆ other.bytes ∧
        other'.bytes = other.bytes \ c.bytes ∧
        ∃ a, Extent.new c.start len = some a ∧ ps ∣ a.start ∧ a.start = c.start ∧ a.len = len ∧
          a.bytes ⊆ c.bytes ∧ (span = len → a = c) ∧
          (span ≠ len → ∃ rem own', Extent.new a.stop (span - len) = some rem ∧
            own.free rem = .ok own' ∧ own'.Canonical ∧
            own'.bytes = (own.bytes ∪ c.bytes) \ a.bytes ∧
            Extent.between a.stop c.stop = some rem) := by
  obtain ⟨hps, hdvd, hle, hlt, -⟩ := checkedNextMultipleOf_spec hspan
  obtain ⟨claimed, other', halloc, hcan, heff, hsome, -⟩ :=
    FreeList.allocWholeUnits_spec hother hdvd
  refine ⟨claimed, other', halloc, hcan, ?_, ?_⟩
  · rintro rfl
    exact heff
  · rintro c rfl
    obtain ⟨hclen, hcsub, hcbytes⟩ := heff
    obtain ⟨r, i, hbest, hstart⟩ := hsome c rfl
    obtain ⟨hidvd, -⟩ := Extent.alignedInterior_spec hbest.part
    rw [← hstart] at hidvd
    have hcstop := c.stop_eq
    have hclimit := c.stop_lt_limit
    have hcpos := c.len_pos
    have hlen : 0 < len := by
      by_contra hzero
      obtain rfl : len = 0 := by omega
      have := Nat.eq_zero_of_dvd_of_lt hdvd (by omega)
      omega
    have hpages : WholePages ps c.bytes := by
      apply wholePages_Ico hidvd
      rw [hcstop, hclen]
      exact dvd_add hidvd hdvd
    obtain ⟨a, ha, hastart, halen⟩ := Extent.exists_new (s := c.start) hlen (by omega)
    have hastop := a.stop_eq
    have hasub : a.bytes ⊆ c.bytes := by
      intro x hx
      rw [Extent.mem_bytes] at hx ⊢
      omega
    refine ⟨hpages, hcsub, hcbytes, a, ha, hastart ▸ hidvd, hastart, halen, hasub,
      fun heq => Extent.ext hastart (by omega), fun hne => ?_⟩
    obtain ⟨rem, hrem, hrs, hrt⟩ :=
      Extent.exists_between (s := a.stop) (by omega) hclimit
    have hremlen := rem.len_eq
    have hremsub : rem.bytes ⊆ c.bytes := by
      intro x hx
      rw [Extent.mem_bytes] at hx ⊢
      omega
    obtain ⟨own', hfree, hcan', hbytes'⟩ :=
      FreeList.free_spec hown (hd.mono_right (hremsub.trans hcsub))
    refine ⟨rem, own', Extent.new_eq_some.mpr ⟨hrs, by omega⟩, hfree, hcan', ?_, hrem⟩
    rw [hbytes']
    ext x
    have hout : x ∈ own.bytes → x ∉ c.bytes :=
      fun hx hxc => Set.disjoint_left.mp hd hx (hcsub hxc)
    simp only [Set.mem_union, Set.mem_sdiff, Extent.mem_bytes] at hout ⊢
    grind

section

variable {paged : PagedEdit} (hcan : ∀ t, (paged.list t).Canonical)
  (hd : ∀ t, Disjoint (paged.list t).bytes (paged.list t.other).bytes)

include hcan hd

lemma claim_serves (len : ℕ) (ty : PageType) :
    ∃ result paged', paged.claim (paged.list ty) (paged.list ty.other) len ty =
      .ok (result, paged') ∧ paged.Serves ty result paged' ∧ ∀ a, result = some a → a.len = len := by
  have hsame : paged.Serves ty none (paged.withLists ty (paged.list ty) (paged.list ty.other)) :=
    serves_own len (hcan ty) (hcan ty.other) rfl
  unfold claim
  cases hspan : checkedNextMultipleOf len paged.pageSize.get with
  | none => exact ⟨none, _, rfl, hsame, by simp⟩
  | some span =>
    obtain ⟨claimed, other', halloc, hcan', hnone, hsome⟩ :=
      exists_claimed (hcan ty) (hcan ty.other) (hd ty) hspan
    simp only [halloc, ok_bind]
    cases claimed with
    | none =>
      rw [hnone rfl]
      exact ⟨none, _, rfl, hsame, by simp⟩
    | some c =>
      obtain ⟨hpages, hcsub, hother, a, ha, -, -, halen, hasub, hfull, hpart⟩ := hsome c rfl
      have hlen : ∀ b, some a = some b → b.len = len := fun b hb => Option.some.inj hb ▸ halen
      by_cases heq : span = len
      · obtain rfl := hfull heq
        simp only [if_pos heq]
        refine ⟨some a, _, rfl, serves_claimed (hcan ty) hcan' hpages hcsub hother hasub ?_, hlen⟩
        rw [Set.union_sdiff_right]
        exact ((hd ty).mono_right hcsub).sdiff_eq_left.symm
      · obtain ⟨rem, own', hrem, hfree, hocan, hobytes, -⟩ := hpart heq
        simp only [if_neg heq, ha, hrem, expect_some, ok_bind, hfree]
        exact ⟨some a, _, rfl, serves_claimed hocan hcan' hpages hcsub hother hasub hobytes, hlen⟩

lemma claimBlock_serves (request : ReservationRequest) :
    ∃ result paged', paged.claimBlock (paged.list request.pageType)
        (paged.list request.pageType.other) request = .ok (result, paged') ∧
      paged.Serves request.pageType result paged' ∧
      ∀ a, result = some a → a.len = request.size := by
  have hsame : paged.Serves request.pageType none (paged.withLists request.pageType
      (paged.list request.pageType) (paged.list request.pageType.other)) :=
    serves_own request.size (hcan request.pageType) (hcan request.pageType.other) rfl
  unfold claimBlock
  cases hspan : checkedNextMultipleOf request.size paged.pageSize.get with
  | none => exact ⟨none, _, rfl, hsame, by simp⟩
  | some span =>
    obtain ⟨claimed, other', halloc, hcan', hnone, hsome⟩ :=
      exists_claimed (hcan request.pageType) (hcan request.pageType.other) (hd request.pageType)
        hspan
    simp only [halloc, ok_bind]
    cases claimed with
    | none =>
      rw [hnone rfl]
      exact ⟨none, _, rfl, hsame, by simp⟩
    | some c =>
      obtain ⟨hpages, hcsub, hother, a, -, hdvd, hastart, halen, hasub, hfull, hpart⟩ := hsome c rfl
      -- a block placed on a page boundary stays there
      have hplace : (request.placeAfter c.start (some paged.pageSize)).toOption = some a := by
        rw [← hastart, ReservationRequest.placeAfter_eq_self halen
          (ReservationRequest.startAfter_aligned hdvd)]
        rfl
      have hlen : ∀ b, some a = some b → b.len = request.size :=
        fun b hb => Option.some.inj hb ▸ halen
      simp only [hplace, expect_some, ok_bind]
      by_cases heq : span = request.size
      · obtain rfl := hfull heq
        rw [Extent.between_eq_none le_rfl]
        refine ⟨some a, _, rfl, serves_claimed (hcan _) hcan' hpages hcsub hother hasub ?_, hlen⟩
        rw [Set.union_sdiff_right]
        exact ((hd _).mono_right hcsub).sdiff_eq_left.symm
      · obtain ⟨rem, own', -, hfree, hocan, hobytes, hrem⟩ := hpart heq
        simp only [hrem, ok_bind, hfree]
        exact ⟨some a, _, rfl, serves_claimed hocan hcan' hpages hcsub hother hasub hobytes, hlen⟩

lemma allocate_serves (len : ℕ) (ty : PageType) :
    ∃ result paged', paged.allocate len ty = .ok (result, paged') ∧
      paged.Serves ty result paged' ∧ ∀ a, result = some a → a.len = len := by
  obtain ⟨result, own, halloc, hocan, heff, -⟩ := FreeList.alloc_spec (hcan ty) len
  simp only [allocate, halloc, ok_bind]
  cases result with
  | some a =>
    exact ⟨some a, _, rfl, serves_own _ hocan (hcan _) heff, fun b hb => Option.some.inj hb ▸ heff.1⟩
  | none =>
    obtain rfl : own = paged.list ty := heff
    exact claim_serves hcan hd len ty

lemma allocateBlock_serves (request : ReservationRequest) :
    ∃ result paged', paged.allocateBlock request = .ok (result, paged') ∧
      paged.Serves request.pageType result paged' ∧
      ∀ a, result = some a → a.len = request.size := by
  obtain ⟨result, own, halloc, hocan, heff, -⟩ :=
    FreeList.allocBlock_spec (hcan request.pageType) request paged.pageSize
  simp only [allocateBlock, halloc, ok_bind]
  cases result with
  | some a =>
    exact ⟨some a, _, rfl, serves_own _ hocan (hcan _) heff, fun b hb => Option.some.inj hb ▸ heff.1⟩
  | none =>
    obtain rfl : own = paged.list request.pageType := heff
    exact claimBlock_serves hcan hd request

end

/-! ## What a session holds -/

def pad (paged : PagedEdit) : PageType → List Extent
  | .metadata => paged.metaPad
  | .raw => paged.rawPad

/-- The bytes of a class: its free list, and for a page type the padding the next commit adds. -/
def holds (paged : PagedEdit) : FreeClass → Set ℕ
  | .page ty => (paged.list ty).bytes ∪ covered (paged.pad ty)
  | .dead => paged.dead.bytes

/-- The free lists are canonical, and no byte is held twice. -/
structure Apart (paged : PagedEdit) : Prop where
  canonical : ∀ ty, (paged.list ty).Canonical
  dead : paged.dead.Canonical
  unclassified : paged.unclassified = .new
  pads : ∀ ty, (paged.pad ty).Pairwise fun a b => Disjoint a.bytes b.bytes
  padFree : ∀ ty, Disjoint (paged.list ty).bytes (covered (paged.pad ty))
  classes : ∀ c c', c ≠ c' → Disjoint (paged.holds c) (paged.holds c')

/-- The free lists are canonical, and no byte is held twice or is unclassified as well. -/
structure Separate (paged : PagedEdit) : Prop where
  canonical : ∀ ty, (paged.list ty).Canonical
  dead : paged.dead.Canonical
  unclassified : paged.unclassified.Canonical
  pads : ∀ ty, (paged.pad ty).Pairwise fun a b => Disjoint a.bytes b.bytes
  padFree : ∀ ty, Disjoint (paged.list ty).bytes (covered (paged.pad ty))
  classes : ∀ c c', c ≠ c' → Disjoint (paged.holds c) (paged.holds c')
  apart : ∀ c, Disjoint paged.unclassified.bytes (paged.holds c)

lemma Apart.separate (h : paged.Apart) : paged.Separate :=
  ⟨h.canonical, h.dead, h.unclassified ▸ FreeList.canonical_new, h.pads, h.padFree, h.classes,
    fun c => by simp [h.unclassified]⟩

lemma list_subset_holds (paged : PagedEdit) (ty : PageType) :
    (paged.list ty).bytes ⊆ paged.holds (.page ty) := Set.subset_union_left

lemma Separate.page_disjoint (h : paged.Separate) (ty : PageType) :
    Disjoint (paged.holds (.page ty)) (paged.holds (.page ty.other)) :=
  h.classes _ _ (by simpa using PageType.ne_other ty)

lemma Separate.list_disjoint (h : paged.Separate) (ty : PageType) :
    Disjoint (paged.list ty).bytes (paged.list ty.other).bytes :=
  (h.page_disjoint ty).mono (list_subset_holds _ _) (list_subset_holds _ _)

lemma apart_new (pageSize : FileSpacePageSize) : (new pageSize).Apart := by
  have hlist : ∀ ty, (new pageSize).list ty = .new := by rintro (_ | _) <;> rfl
  have hpad : ∀ ty, (new pageSize).pad ty = [] := by rintro (_ | _) <;> rfl
  have hholds : ∀ c, (new pageSize).holds c = ∅ := by
    rintro (_ | ty)
    · exact FreeList.bytes_new
    · simp [holds, hlist, hpad]
  exact ⟨fun ty => hlist ty ▸ FreeList.canonical_new, FreeList.canonical_new, rfl,
    fun ty => by simp [hpad], fun ty => by simp [hpad], fun c c' _ => by simp [hholds]⟩

/-- One class gains bytes that no class has. -/
lemma disjoint_gain {held held' : FreeClass → Set ℕ} {b : Set ℕ} {c₀ : FreeClass}
    (h : ∀ c c', c ≠ c' → Disjoint (held c) (held c')) (hb : ∀ c, Disjoint (held c) b)
    (hgain : held' c₀ = held c₀ ∪ b) (hsame : ∀ c, c ≠ c₀ → held' c = held c) :
    ∀ c c', c ≠ c' → Disjoint (held' c) (held' c') := by
  intro c c' hne
  by_cases hc : c = c₀
  · subst hc
    rw [hgain, hsame c' (Ne.symm hne), Set.disjoint_union_left]
    exact ⟨h _ _ hne, (hb c').symm⟩
  rw [hsame c hc]
  by_cases hc' : c' = c₀
  · subst hc'
    rw [hgain, Set.disjoint_union_right]
    exact ⟨h _ _ hne, hb c⟩
  · rw [hsame c' hc']
    exact h _ _ hne

lemma padTo_spec {eoa : ℕ} {transition : PageTransition} (h : paged.padTo eoa = .ok transition) :
    ∃ e, transition = .pad e paged.last ∧ e.start = eoa ∧ paged.pageSize.get ∣ e.stop := by
  have hpos := paged.pageSize.get_pos
  unfold padTo at h
  simp only at h
  cases hnew : Extent.new eoa (paged.pageSize.get - eoa % paged.pageSize.get) with
  | none => exact (nomatch hnew ▸ h)
  | some e =>
    rw [hnew] at h
    obtain ⟨hstart, hlen⟩ := Extent.new_eq_some.mp hnew
    refine ⟨e, (Except.ok.inj h).symm, hstart, ?_⟩
    have hdiv := Nat.div_add_mod eoa paged.pageSize.get
    have hmod := Nat.mod_lt eoa hpos
    have hstop : e.stop = paged.pageSize.get * (eoa / paged.pageSize.get + 1) := by
      rw [Extent.stop_eq, Nat.mul_add]
      omega
    exact hstop ▸ Nat.dvd_mul_right _ _

lemma recordPadding_frame (paged : PagedEdit) (e : Extent) (ty : Option PageType) :
    (paged.recordPadding e ty).pageSize = paged.pageSize ∧
      (paged.recordPadding e ty).last = paged.last ∧ (paged.recordPadding e ty).dead = paged.dead := by
  rcases ty with _ | _ | _ <;> exact ⟨rfl, rfl, rfl⟩

lemma Apart.gain (h : paged.Apart) (hfree : ∀ c, Disjoint (paged.holds c) e.bytes)
    (hdead : paged'.dead = paged.dead) (hunc : paged'.unclassified = paged.unclassified)
    (hlist : paged'.list ty.other = paged.list ty.other)
    (hpad : paged'.pad ty.other = paged.pad ty.other) (hcan : (paged'.list ty).Canonical)
    (hpads : DisjointExtents (paged'.pad ty))
    (hpadFree : Disjoint (paged'.list ty).bytes (covered (paged'.pad ty)))
    (hholds : paged'.holds (.page ty) = paged.holds (.page ty) ∪ e.bytes) :
    paged'.Apart ∧ ∀ c, c ≠ .page ty → paged'.holds c = paged.holds c := by
  have hholds' : ∀ c, c ≠ .page ty → paged'.holds c = paged.holds c := by
    rintro (_ | t) hc
    · simp only [holds, hdead]
    · rcases PageType.eq_or_eq_other ty t with rfl | rfl
      · exact absurd rfl hc
      · simp only [holds, hlist, hpad]
  refine ⟨⟨PageType.forall ty hcan (hlist ▸ h.canonical _), hdead ▸ h.dead, hunc ▸ h.unclassified,
    PageType.forall ty hpads (hpad ▸ h.pads _), PageType.forall ty hpadFree ?_,
    disjoint_gain h.classes hfree hholds hholds'⟩, hholds'⟩
  rw [hlist, hpad]
  exact h.padFree _

lemma Apart.recordPadding (h : paged.Apart) (hfree : ∀ c, Disjoint (paged.holds c) e.bytes)
    (ty : PageType) :
    (paged.recordPadding e (some ty)).Apart ∧
      (paged.recordPadding e (some ty)).holds (.page ty) = paged.holds (.page ty) ∪ e.bytes ∧
      ∀ c, c ≠ .page ty → (paged.recordPadding e (some ty)).holds c = paged.holds c := by
  have hlist : ∀ t, (paged.recordPadding e (some ty)).list t = paged.list t := by
    cases ty <;> rintro (_ | _) <;> rfl
  have hpad : (paged.recordPadding e (some ty)).pad ty = paged.pad ty ++ [e] := by
    cases ty <;> rfl
  have hholds : (paged.recordPadding e (some ty)).holds (.page ty) =
      paged.holds (.page ty) ∪ e.bytes := by
    simp only [holds, hlist, hpad, covered_append, covered_singleton, Set.union_assoc]
  refine And.imp_right (And.intro hholds) (h.gain hfree (by cases ty <;> rfl) (by cases ty <;> rfl)
    (hlist _) (by cases ty <;> rfl) (hlist ty ▸ h.canonical ty) ?_ ?_ hholds)
  · rw [hpad]
    refine FreeList.pairwise_disjoint_append (h.pads ty) (List.pairwise_singleton _ _) ?_
    exact covered_singleton e ▸ (hfree (.page ty)).mono_left Set.subset_union_right
  · rw [hlist, hpad, covered_append, covered_singleton, Set.disjoint_union_right]
    exact ⟨h.padFree ty, (hfree (.page ty)).mono_left (list_subset_holds _ _)⟩

lemma Apart.returnAllocation (h : paged.Apart) (hfree : ∀ c, Disjoint (paged.holds c) e.bytes)
    (ty : PageType) :
    ∃ paged', paged.returnAllocation e ty = .ok paged' ∧ paged'.Apart ∧
      (paged'.pageSize = paged.pageSize ∧ paged'.last = paged.last ∧ paged'.dead = paged.dead) ∧
      paged'.holds (.page ty) = paged.holds (.page ty) ∪ e.bytes ∧
      ∀ c, c ≠ .page ty → paged'.holds c = paged.holds c := by
  obtain ⟨own, hown, hcan, hbytes⟩ := FreeList.free_spec (h.canonical ty)
    ((hfree (.page ty)).mono_left (list_subset_holds _ _))
  obtain ⟨paged', hpaged⟩ :
    ∃ paged', paged' = paged.withLists ty own (paged.list ty.other) := ⟨_, rfl⟩
  have hlist : paged'.list ty = own := by simp [hpaged]
  have hpad : ∀ t, paged'.pad t = paged.pad t := by
    rw [hpaged]
    cases ty <;> rintro (_ | _) <;> rfl
  have hholds : paged'.holds (.page ty) = paged.holds (.page ty) ∪ e.bytes := by
    simp only [holds, hlist, hbytes, hpad, Set.union_right_comm]
  have hframe : paged'.pageSize = paged.pageSize ∧ paged'.last = paged.last ∧
      paged'.dead = paged.dead := by
    rw [hpaged]
    cases ty <;> exact ⟨rfl, rfl, rfl⟩
  have hpadFree : Disjoint (paged'.list ty).bytes (covered (paged'.pad ty)) := by
    rw [hlist, hbytes, hpad, Set.disjoint_union_left]
    exact ⟨h.padFree ty, (hfree (.page ty)).symm.mono_right Set.subset_union_right⟩
  obtain ⟨hapart, hsame⟩ := h.gain hfree hframe.2.2 (by rw [hpaged]; cases ty <;> rfl)
    (by simp [hpaged]) (hpad _) (hlist ▸ hcan) (hpad ty ▸ h.pads ty) hpadFree hholds
  refine ⟨paged', ?_, hapart, hframe, hholds, hsame⟩
  simp only [PagedEdit.returnAllocation, hown, ok_bind, hpaged]

lemma Serves.same (h : paged.Serves ty result paged') :
    paged'.pageSize = paged.pageSize ∧ paged'.dead = paged.dead ∧
      paged'.unclassified = paged.unclassified ∧ paged'.last = paged.last ∧
      ∀ t, paged'.pad t = paged.pad t := by
  rw [h.frame]
  cases ty <;> exact ⟨rfl, rfl, rfl, rfl, fun t => by cases t <;> rfl⟩

/-- An allocation keeps everything apart: its type gains the pages `w` that the other type had, and
gives up the extent. -/
lemma Separate.serves (h : paged.Separate) (hs : paged.Serves ty result paged') :
    paged'.Separate ∧ ∃ w, WholePages paged.pageSize.get w ∧
      w ⊆ (paged.list ty.other).bytes ∧
      paged'.holds (.page ty) ⊆ paged.holds (.page ty) ∪ w ∧
      paged'.holds (.page ty.other) ⊆ paged.holds (.page ty.other) \ w ∧
      covered result.toList ⊆ paged.holds (.page ty) ∪ w ∧
      Disjoint (paged'.holds (.page ty)) (covered result.toList) := by
  obtain ⟨-, hdead, hunc, -, hpad⟩ := hs.same
  obtain ⟨w, hw, hwsub, hother, hgiven, hown⟩ := hs.pages
  have hwhold : w ⊆ paged.holds (.page ty.other) := hwsub.trans (list_subset_holds _ _)
  have hwpad : ∀ t, Disjoint w (covered (paged.pad t)) := by
    refine PageType.forall ty ?_ ((h.padFree _).mono_left hwsub)
    exact ((h.page_disjoint ty).mono Set.subset_union_right hwhold).symm
  have hown' : paged'.holds (.page ty) ⊆ paged.holds (.page ty) ∪ w := by
    rw [holds, hown, hpad, holds, Set.union_right_comm]
    exact Set.union_subset_union_left _ Set.sdiff_subset
  have hother' : paged'.holds (.page ty.other) ⊆ paged.holds (.page ty.other) \ w := by
    rw [holds, hother, hpad, holds, Set.union_sdiff_distrib, (hwpad _).sdiff_eq_right]
  have hpages : Disjoint (paged'.holds (.page ty)) (paged'.holds (.page ty.other)) := by
    refine Disjoint.mono hown' hother' (Set.disjoint_union_left.mpr ⟨?_, Set.disjoint_sdiff_right⟩)
    exact (h.page_disjoint ty).mono_right Set.sdiff_subset
  have hdeads : ∀ t, Disjoint (paged'.holds (.page t)) (paged'.holds .dead) := by
    have hwdead := (h.classes (.page ty.other) .dead (by simp)).mono_left hwhold
    have hdead' : paged'.holds .dead = paged.holds .dead := by rw [holds, hdead, holds]
    rw [hdead']
    refine PageType.forall ty ?_ ?_
    · exact (Set.disjoint_union_left.mpr ⟨h.classes _ _ (by simp), hwdead⟩).mono_left hown'
    · exact (h.classes _ _ (by simp)).mono_left (hother'.trans Set.sdiff_subset)
  refine ⟨⟨hs.canonical, hdead ▸ h.dead, hunc ▸ h.unclassified, fun t => hpad t ▸ h.pads t, ?_, ?_, ?_⟩,
    w, hw, hwsub, hown', hother', ?_, ?_⟩
  · refine PageType.forall ty ?_ ?_
    · rw [hown, hpad]
      exact (Set.disjoint_union_left.mpr ⟨h.padFree ty, hwpad ty⟩).mono_left Set.sdiff_subset
    · rw [hother, hpad]
      exact (h.padFree _).mono_left Set.sdiff_subset
  · intro c c' hne
    rcases c with _ | t <;> rcases c' with _ | t'
    · exact absurd rfl hne
    · exact (hdeads t').symm
    · exact hdeads t
    · rcases PageType.eq_or_eq_other ty t with rfl | rfl
      · rcases PageType.eq_or_eq_other t t' with rfl | rfl
        · exact absurd rfl hne
        · exact hpages
      · rcases PageType.eq_or_eq_other ty t' with rfl | rfl
        · exact hpages.symm
        · exact absurd rfl hne
  · rw [hunc]
    rintro (_ | t)
    · rw [holds, hdead]
      exact h.apart .dead
    · rcases PageType.eq_or_eq_other ty t with rfl | rfl
      · exact (Set.disjoint_union_right.mpr ⟨h.apart _, (h.apart _).mono_right hwhold⟩).mono_right hown'
      · exact (h.apart _).mono_right (hother'.trans Set.sdiff_subset)
  · exact hgiven.trans (Set.union_subset_union_left _ (list_subset_holds _ _))
  · rw [holds, hown, hpad, Set.disjoint_union_left]
    exact ⟨Set.disjoint_sdiff_left,
      ((Set.disjoint_union_left.mpr ⟨h.padFree ty, hwpad ty⟩).mono_left hgiven).symm⟩

/-- An allocation holds nothing new, and what it returns was held and is held no more. -/
lemma Separate.serves_holds (h : paged.Separate) (hs : paged.Serves ty result paged') :
    (∀ c, ∀ x ∈ paged'.holds c, ∃ c', x ∈ paged.holds c') ∧
      (∀ x ∈ covered result.toList, ∃ t, x ∈ paged.holds (.page t)) ∧
      ∀ c, Disjoint (paged'.holds c) (covered result.toList) := by
  obtain ⟨-, w, -, hwsub, hown, hother, hgiven, hgone⟩ := h.serves hs
  have hwhold : w ⊆ paged.holds (.page ty.other) := hwsub.trans (list_subset_holds _ _)
  have hdead : paged'.holds .dead = paged.holds .dead := by rw [holds, hs.same.2.1, holds]
  have hfrom : ∀ x ∈ paged.holds (.page ty) ∪ w, ∃ t, x ∈ paged.holds (.page t) :=
    fun x hx => hx.elim (⟨_, ·⟩) fun hx => ⟨_, hwhold hx⟩
  refine ⟨?_, fun x hx => hfrom x (hgiven hx), ?_⟩
  · rintro (_ | t) x hx
    · exact ⟨.dead, hdead ▸ hx⟩
    · rcases PageType.eq_or_eq_other ty t with rfl | rfl
      · exact (hfrom x (hown hx)).imp' _ fun _ => id
      · exact ⟨_, (hother hx).1⟩
  · rintro (_ | t)
    · rw [hdead, Set.disjoint_left]
      intro x hx hxg
      obtain ⟨t, hxt⟩ := hfrom x (hgiven hxg)
      exact Set.disjoint_left.mp (h.classes .dead (.page t) (by simp)) hx hxt
    · rcases PageType.eq_or_eq_other ty t with rfl | rfl
      · exact hgone
      · refine Disjoint.mono hother hgiven (Set.disjoint_union_right.mpr ⟨?_, Set.disjoint_sdiff_left⟩)
        exact (h.page_disjoint ty).symm.mono_left Set.sdiff_subset

lemma Apart.serves (h : paged.Apart) (hs : paged.Serves ty result paged') : paged'.Apart :=
  let hsep := (h.separate.serves hs).1
  ⟨hsep.canonical, hsep.dead, hs.same.2.2.1.trans h.unclassified, hsep.pads, hsep.padFree, hsep.classes⟩

def commitBytes (paged : PagedEdit) (returned : Returns) (c : FreeClass) : Set ℕ :=
  paged.holds c ∪ classBytes c returned

lemma disjoint_classBytes_right {returned : Returns} {s : Set ℕ}
    (h : ∀ d ∈ returned, Disjoint s d.1.bytes) (c : FreeClass) :
    Disjoint s (classBytes c returned) := by
  rw [Set.disjoint_right]
  rintro x ⟨e, he, hx⟩
  exact Set.disjoint_right.mp (h _ he) hx

/-- Classes that are apart stay so with what is freed under them. -/
lemma disjoint_union_classBytes {held : FreeClass → Set ℕ}
    {returned : Returns} {c c' : FreeClass} (hne : c ≠ c')
    (h : Disjoint (held c) (held c')) (hdisj : DisjointReturns returned)
    (hfree : ∀ d ∈ returned, ∀ c, Disjoint (held c) d.1.bytes) :
    Disjoint (held c ∪ classBytes c returned) (held c' ∪ classBytes c' returned) := by
  have hcross : ∀ c c', Disjoint (held c) (classBytes c' returned) :=
    fun c => disjoint_classBytes_right fun d hd => hfree d hd c
  rw [Set.disjoint_union_left, Set.disjoint_union_right, Set.disjoint_union_right]
  refine ⟨⟨h, hcross c c'⟩, (hcross c' c).symm, Set.disjoint_left.mpr ?_⟩
  rintro x ⟨e, he, hx⟩ ⟨e', he', hx'⟩
  exact hne (Prod.mk.inj (eq_of_mem_bytes hdisj he he' hx hx')).2

end PagedEdit

end Hdf5Pure.Space
