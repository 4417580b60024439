import Hdf5Pure.Space.FreeListRangeTheorems

/-!
# Allocation from free lists

Each allocation removes exactly the extent it returns. `IsBest` says which region serves a request:
the one whose usable part is smallest, and the lowest of those.
-/

namespace Hdf5Pure.Space

open Checked IntervalLists List

/-- Region `r` with usable part `c` is the best fit: no sufficient part is smaller, and none as
small is lower. -/
structure IsBest (candidate : Extent → Option Extent) (len : ℕ) (regions : List Extent)
    (r c : Extent) : Prop where
  mem : r ∈ regions
  part : candidate r = some c
  fits : len ≤ c.len
  least : ∀ r' ∈ regions, ∀ c', candidate r' = some c' → len ≤ c'.len →
    c.len < c'.len ∨ (c.len = c'.len ∧ r.start ≤ r'.start)

def NoFit (candidate : Extent → Option Extent) (len : ℕ) (regions : List Extent) : Prop :=
  ∀ r ∈ regions, ∀ c, candidate r = some c → c.len < len

lemma eq_of_start_eq {l : List Extent} (hl : SeparatedExtents l) {a b : Extent} (ha : a ∈ l)
    (hb : b ∈ l) (h : a.start = b.start) : a = b := by
  by_contra hne
  have := hl.apart ha hb hne
  have := a.start_lt_stop
  have := b.start_lt_stop
  omega

variable {regions : List Extent}

variable {candidate : Extent → Option Extent} {r : Extent} {len : ℕ} {pageSize : FileSpacePageSize}

lemma IsBest.unique {c r' c' : Extent} (h : IsBest candidate len regions r c)
    (h' : IsBest candidate len regions r' c') (hsep : SeparatedExtents regions) :
    r = r' ∧ c = c' := by
  have h1 := h.least r' h'.mem c' h'.part h'.fits
  have h2 := h'.least r h.mem c h.part h.fits
  have hr : r = r' := eq_of_start_eq hsep h.mem h'.mem (by omega)
  subst hr
  exact ⟨rfl, Option.some.inj (h.part.symm.trans h'.part)⟩

lemma not_isBest_of_noFit {c : Extent} (h : NoFit candidate len regions) :
    ¬ IsBest candidate len regions r c :=
  fun hb => absurd (h r hb.mem c hb.part) (not_lt.mpr hb.fits)

namespace FreeList

/-- The scan returns the best fit. The induction is on the regions already visited, since the
scan keeps the best of a prefix. -/
lemma bestFit_spec (candidate : Extent → Option Extent) (len : ℕ)
    (hsep : SeparatedExtents regions) :
    (bestFit candidate len regions = none ∧ NoFit candidate len regions) ∨
      ∃ i r c, bestFit candidate len regions = some (i, c) ∧ regions[i]? = some r ∧
        IsBest candidate len regions r c := by
  induction regions using reverseRecOn with
  | nil => exact .inl ⟨rfl, by simp [NoFit]⟩
  | append_singleton regions a ih =>
    obtain ⟨hpre, -, hcross⟩ := separated_append.mp hsep
    simp only [mem_singleton, forall_eq] at hcross
    have hbelow : ∀ r ∈ regions, r.start < a.start := fun r hr =>
      r.start_lt_stop.trans (hcross r hr)
    have hfold : bestFit candidate len (regions ++ [a]) =
        bestFitStep candidate len (bestFit candidate len regions) (a, regions.length) := by
      simp [bestFit, zipIdx_append]
    rw [hfold]
    cases hcand : candidate a with
    | none =>
      simp only [bestFitStep, hcand]
      rcases ih hpre with ⟨hnone, hno⟩ | ⟨i, r, c, hsome, hget, hbest⟩
      · exact .inl ⟨hnone, forall_mem_append.mpr ⟨hno, by simp [hcand]⟩⟩
      · refine .inr ⟨i, r, c, hsome, ?_, by simp [hbest.mem], hbest.part, hbest.fits, ?_⟩
        · rw [List.getElem?_append_left (List.getElem?_eq_some_iff.mp hget).1, hget]
        · exact List.forall_mem_append.mpr ⟨hbest.least, by simp [hcand]⟩
    | some p =>
      simp only [bestFitStep, hcand]
      rcases ih hpre with ⟨hnone, hno⟩ | ⟨i, r, c, hsome, hget, hbest⟩
      · rw [hnone]
        by_cases hfit : len ≤ p.len
        · refine .inr ⟨regions.length, a, p, by simp [hfit], by simp, by simp, hcand, hfit, ?_⟩
          refine forall_mem_append.mpr ⟨fun r' hr' c' hc' hle => ?_, by simp [hcand]⟩
          exact absurd hle (not_le.mpr (hno r' hr' c' hc'))
        · refine .inl ⟨by simp [hfit], forall_mem_append.mpr ⟨hno, ?_⟩⟩
          simpa [hcand] using hfit
      · rw [hsome]
        right
        by_cases hnew : len ≤ p.len ∧ p.len < c.len
        · refine ⟨regions.length, a, p, by simp [hnew], by simp, by simp, hcand, hnew.1, ?_⟩
          refine forall_mem_append.mpr ⟨fun r' hr' c' hc' hle => ?_, by simp [hcand]⟩
          have := hbest.least r' hr' c' hc' hle
          omega
        · refine ⟨i, r, c, by simp [hnew], ?_, by simp [hbest.mem], hbest.part, hbest.fits, ?_⟩
          · rw [List.getElem?_append_left (List.getElem?_eq_some_iff.mp hget).1, hget]
          · refine List.forall_mem_append.mpr ⟨hbest.least, ?_⟩
            have := hbelow r hbest.mem
            simp only [forall_mem_singleton, hcand, Option.some.injEq, forall_eq']
            omega

/-- An allocation fails and leaves the list, or removes exactly the extent it returns, which was
free and has the requested length. -/
def Allocates (l : FreeList) (len : ℕ) (result : Option Extent) (l' : FreeList) : Prop :=
  match result with
  | none => l' = l
  | some a => a.len = len ∧ a.bytes ⊆ l.bytes ∧ l'.bytes = l.bytes \ a.bytes

lemma Allocates.bytes_subset {l l' : FreeList} {len : ℕ} {result : Option Extent}
    (h : l.Allocates len result l') : l'.bytes ⊆ l.bytes := by
  cases result with
  | none => rw [show l' = l from h]
  | some a =>
    rw [h.2.2]
    exact Set.sdiff_subset

variable {l : FreeList}

/-- Replacing region `r` by the pieces that lie outside an extent inside it removes that extent
from a canonical list. -/
lemma replace_pieces (hl : l.Canonical) {i : ℕ} {a : Extent} (hget : l.regions[i]? = some r)
    (hin : r.start ≤ a.start ∧ a.stop ≤ r.stop) :
    a.len ≤ l.totalBytes ∧ a.bytes ⊆ l.bytes ∧
      (⟨l.regions.take i ++ (pieces a r ++ l.regions.drop (i + 1)), l.totalBytes - a.len⟩ :
        FreeList).Canonical ∧
      covered (l.regions.take i ++ (pieces a r ++ l.regions.drop (i + 1))) = l.bytes \ a.bytes := by
  have hsplit : l.regions = l.regions.take i ++ r :: l.regions.drop (i + 1) := by
    obtain ⟨hlt, rfl⟩ := List.getElem?_eq_some_iff.mp hget
    rw [← List.drop_eq_getElem_cons hlt, List.take_append_drop]
  have hsep := hl.separated
  have htotal := hl.total
  rw [hsplit] at hsep htotal
  have hapos := a.start_lt_stop
  have hlens : lens (pieces a r) + a.len = r.len := by
    have hlt := r.stop_lt_limit
    have hrlen := r.len_eq
    have halen := a.len_eq
    rw [pieces, lens_append, (between_toList (by omega)).2.1, (between_toList hlt).2.1]
    omega
  have hsub : a.bytes ⊆ r.bytes := fun x hx => ⟨hin.1.trans hx.1, hx.2.trans_le hin.2⟩
  have hmem : r ∈ l.regions := mem_of_getElem? hget
  simp only [lens_append, lens_cons] at htotal
  refine ⟨by omega, hsub.trans (bytes_subset_covered hmem), ⟨?_, ?_⟩, ?_⟩
  · exact hsep.splice (pieces_spec a r).1 (pieces_spec a r).2
  · simp only [lens_append]
    omega
  · have hrest := Set.disjoint_left.mp hsep.ascending.disjoint_rest
    conv_rhs => rw [bytes, hsplit]
    simp only [covered_append, covered_cons, covered_pieces]
    ext x
    have hx : x ∈ covered (l.regions.take i) ∨ x ∈ covered (l.regions.drop (i + 1)) → x ∉ r.bytes :=
      @hrest x
    simp only [Set.mem_union, Set.mem_sdiff]
    tauto

/-- `alloc` takes the low end of the best fitting region. -/
lemma alloc_spec (hl : l.Canonical) (len : ℕ) :
    ∃ result l', l.alloc len = .ok (result, l') ∧ l'.Canonical ∧ l.Allocates len result l' ∧
      (∀ a, result = some a → ∃ r, IsBest some len l.regions r r ∧ a.start = r.start) ∧
      (result = none → len = 0 ∨ NoFit some len l.regions) := by
  by_cases hzero : len = 0
  · exact ⟨none, l, by simp [alloc, hzero], hl, rfl, by simp, fun _ => .inl hzero⟩
  rcases bestFit_spec some len hl.separated with ⟨hnone, hno⟩ | ⟨i, r, c, hsome, hget, hbest⟩
  · exact ⟨none, l, by simp [alloc, hzero, hnone], hl, rfl, by simp, fun _ => .inr hno⟩
  obtain rfl : r = c := Option.some.inj hbest.part
  have hfits := hbest.fits
  have hrstop := r.stop_eq
  have hrlt := r.stop_lt_limit
  obtain ⟨a, ha, has, halen⟩ := Extent.exists_new (s := r.start) (n := len) (by omega) (by omega)
  have hastop := a.stop_eq
  obtain ⟨hle, hsub, hcan, hcov⟩ := replace_pieces hl hget (a := a) (by omega)
  have hlow : Extent.between r.start (min r.stop a.start) = none :=
    Extent.between_eq_none (by omega)
  have hmax : max r.start a.stop = a.stop := by omega
  have hpieces : pieces a r = (Extent.between a.stop r.stop).toList := by
    rw [pieces, hlow, hmax]
    rfl
  rw [halen] at hle
  refine ⟨some a, _, ?_, hcan, ⟨halen, hsub, hcov⟩, ?_, by simp⟩
  · obtain ⟨hi, -⟩ := List.getElem?_eq_some_iff.mp hget
    by_cases hwhole : a.stop = r.stop
    · have hempty : pieces a r = [] := by
        rw [hpieces, Extent.between_eq_none hwhole.ge]
        rfl
      simp [alloc, hzero, hsome, ha, hwhole, subtractBytes_of_le hle, hempty, halen,
        eraseIdx_eq_take_drop_succ]
    · obtain ⟨u, hu, -⟩ := Extent.exists_between (s := a.stop) (by omega) hrlt
      simp [alloc, hzero, hsome, ha, hwhole, hu, subtractBytes_of_le hle, hpieces, halen,
        set_eq_take_append_cons_drop, hi]
  · rintro b ⟨rfl⟩
    exact ⟨r, hbest, has⟩

/-- `allocWholeUnits` takes the low end of the best fitting aligned interior. -/
lemma allocWholeUnits_spec (hl : l.Canonical) {align : ℕ} (hunits : align ∣ len) :
    ∃ result l', l.allocWholeUnits len align = .ok (result, l') ∧ l'.Canonical ∧
      l.Allocates len result l' ∧
      (∀ a, result = some a → ∃ r c, IsBest (fun r => r.alignedInterior align) len l.regions r c ∧
        a.start = c.start) ∧
      (result = none → len = 0 ∨ align = 0 ∨
        NoFit (fun r => r.alignedInterior align) len l.regions) := by
  by_cases hzero : len = 0 ∨ align = 0
  · refine ⟨none, l, by simp [allocWholeUnits, hzero], hl, rfl, by simp, fun _ => ?_⟩
    rcases hzero with h | h
    · exact .inl h
    · exact .inr (.inl h)
  have hassert : (len % align == 0) = true := by simpa using Nat.mod_eq_zero_of_dvd hunits
  rcases bestFit_spec (fun r => r.alignedInterior align) len hl.separated with
    ⟨hnone, hno⟩ | ⟨i, r, c, hsome, hget, hbest⟩
  · exact ⟨none, l, by simp [allocWholeUnits, hzero, assert_of hassert, hnone], hl, rfl, by simp,
      fun _ => .inr (.inr hno)⟩
  have hfits := hbest.fits
  obtain ⟨-, -, hstart, -, hstop, -⟩ := Extent.alignedInterior_spec hbest.part
  have hcstop := c.stop_eq
  have hclt := c.stop_lt_limit
  obtain ⟨a, ha, has, halen⟩ := Extent.exists_new (s := c.start) (n := len) (by omega) (by omega)
  have hastop := a.stop_eq
  obtain ⟨hle, hsub, hcan, hcov⟩ := replace_pieces hl hget (a := a) (by omega)
  have hover : a.start < r.stop ∧ r.start < a.stop := by omega
  rw [halen] at hle
  refine ⟨some a, _, ?_, hcan, ⟨halen, hsub, hcov⟩, ?_, by simp⟩
  · simp [allocWholeUnits, hzero, assert_of hassert, hsome, hget, ha, remainders_eq hover,
      subtractBytes_of_le hle, halen]
  · rintro b ⟨rfl⟩
    exact ⟨r, c, hbest, has⟩

/-- Taking an extent out of one region of a canonical list removes exactly that extent. -/
lemma takeRange_inside (hl : l.Canonical) {a : Extent} (hr : r ∈ l.regions)
    (hin : r.start ≤ a.start ∧ a.stop ≤ r.stop) :
    ∃ l', l.takeRange a = .ok l' ∧ l'.Canonical ∧ l.Allocates a.len (some a) l' := by
  obtain ⟨l', hl', hcan, hbytes⟩ := takeRange_spec hl a
  refine ⟨l', hl', hcan, rfl, ?_, hbytes⟩
  exact fun x hx => bytes_subset_covered hr ⟨hin.1.trans hx.1, hx.2.trans_le hin.2⟩

/-- `allocBelow` takes the low end of a region, ending at or below the limit. -/
lemma allocBelow_spec (hl : l.Canonical) (len limit : ℕ) :
    ∃ result l', l.allocBelow len limit = .ok (result, l') ∧ l'.Canonical ∧
      l.Allocates len result l' ∧ (∀ a, result = some a → a.stop ≤ limit) := by
  unfold allocBelow
  simp only
  split
  · exact ⟨none, l, rfl, hl, rfl, by simp⟩
  rename_i r hmin
  obtain ⟨hmem, -⟩ := minByKey_spec hmin
  simp only [mem_filter, Bool.and_eq_true, decide_eq_true_eq, Option.any_eq_true_iff_get] at hmem
  obtain ⟨hr, hlen, hsome, hlimit⟩ := hmem
  have hstop : r.start + len ≤ limit := by
    obtain ⟨b, hb⟩ := Option.isSome_iff_exists.mp hsome
    obtain ⟨-, rfl⟩ := checkedAdd_eq_some.mp hb
    simpa [hb] using hlimit
  split
  · exact ⟨none, l, rfl, hl, rfl, by simp⟩
  rename_i a ha
  obtain ⟨has, halen⟩ := Extent.new_eq_some.mp ha
  have hastop := a.stop_eq
  have hrstop := r.stop_eq
  obtain ⟨l', hl', hcan, hall⟩ := takeRange_inside hl hr (a := a) (by omega)
  refine ⟨some a, l', by simp [hl'], hcan, halen ▸ hall, ?_⟩
  rintro b ⟨rfl⟩
  omega

end FreeList

/-! ## PAGE blocks -/

/-- A request fits a region whose block capacity it does not exceed. -/
lemma placeAfter_of_capacity {request : ReservationRequest}
    (h : request.size ≤ r.blockCapacity pageSize request.size) :
    ∃ a, request.placeAfter r.start (some pageSize) = .ok a ∧ a.len = request.size ∧
      r.start ≤ a.start ∧ a.stop ≤ r.stop := by
  have hsize := request.size_pos
  have hlt := r.stop_lt_limit
  have hrstop := r.stop_eq
  -- the start the request is given leaves room for it inside the region
  have hroom : ∃ s, request.startAfter r.start (some pageSize) = .ok s ∧ r.start ≤ s ∧
      s + request.size ≤ r.stop := by
    unfold ReservationRequest.startAfter
    unfold Extent.blockCapacity at h
    simp only at h
    cases hblock : request.isBlock with
    | false =>
      refine ⟨r.start, by simp [Option.filter], le_rfl, ?_⟩
      split_ifs at h <;> omega
    | true =>
      simp only [Option.filter, if_true]
      by_cases hmove : r.start % pageSize.get ≠ 0 ∧
          (pageSize.get ≤ request.size ∨ pageSize.get - r.start % pageSize.get < request.size)
      · have hfit : r.start + (pageSize.get - r.start % pageSize.get) + request.size ≤ r.stop := by
          split_ifs at h <;> omega
        exact ⟨_, by rw [if_pos hmove, checkedAdd_of_lt (by omega)], by omega, hfit⟩
      · refine ⟨r.start, by rw [if_neg hmove], le_rfl, ?_⟩
        split_ifs at h <;> omega
  obtain ⟨s, hs, hle, hfit⟩ := hroom
  obtain ⟨a, ha, has, halen⟩ := Extent.exists_new (s := s) hsize (by omega)
  have hastop := a.stop_eq
  refine ⟨a, ?_, halen, by omega, by omega⟩
  simp only [ReservationRequest.placeAfter, hs, bind, Except.bind, ha]

/-- Region `r` has the least sufficient block capacity, and none as small is lower. -/
structure IsBestBlock (pageSize : FileSpacePageSize) (size : ℕ) (regions : List Extent)
    (r : Extent) : Prop where
  mem : r ∈ regions
  fits : size ≤ r.blockCapacity pageSize size
  least : ∀ r' ∈ regions, size ≤ r'.blockCapacity pageSize size →
    r.blockCapacity pageSize size < r'.blockCapacity pageSize size ∨
      (r.blockCapacity pageSize size = r'.blockCapacity pageSize size ∧ r.start ≤ r'.start)

lemma IsBestBlock.unique {size : ℕ} {r' : Extent} (h : IsBestBlock pageSize size regions r)
    (h' : IsBestBlock pageSize size regions r') (hsep : SeparatedExtents regions) : r = r' := by
  have h1 := h.least r' h'.mem h'.fits
  have h2 := h'.least r h.mem h.fits
  exact eq_of_start_eq hsep h.mem h'.mem (by omega)

namespace FreeList

/-- `allocBlock` places the request in the region with the least sufficient block capacity. -/
lemma allocBlock_spec {l : FreeList} (hl : l.Canonical) (request : ReservationRequest)
    (pageSize : FileSpacePageSize) :
    ∃ result l', l.allocBlock request pageSize = .ok (result, l') ∧ l'.Canonical ∧
      l.Allocates request.size result l' ∧
      (∀ a, result = some a → ∃ r, IsBestBlock pageSize request.size l.regions r ∧
        request.placeAfter r.start (some pageSize) = .ok a) ∧
      (result = none → ∀ r ∈ l.regions, r.blockCapacity pageSize request.size < request.size) := by
  have hfits : ∀ r : Extent, request.size ≤ r.blockCapacity pageSize request.size →
      ∃ a, blockFit request pageSize r = some (r.blockCapacity pageSize request.size, a) ∧
        request.placeAfter r.start (some pageSize) = .ok a ∧ a.len = request.size ∧
        r.start ≤ a.start ∧ a.stop ≤ r.stop := by
    intro r hr
    obtain ⟨a, ha, hrest⟩ := placeAfter_of_capacity hr
    exact ⟨a, by simp [blockFit, not_lt.mpr hr, ha], ha, hrest⟩
  have hnofit : ∀ r : Extent, r.blockCapacity pageSize request.size < request.size →
      blockFit request pageSize r = none := by
    intro r hr
    simp [blockFit, hr]
  rw [allocBlock]
  cases hmin : minByKey (fun fit : ℕ × Extent => toLex (fit.1, fit.2.start))
      (l.regions.filterMap (blockFit request pageSize)) with
  | none =>
    refine ⟨none, l, rfl, hl, rfl, by simp, fun _ r hr => ?_⟩
    have hnone := filterMap_eq_nil_iff.mp (minByKey_eq_none.mp hmin) r hr
    by_contra hc
    obtain ⟨a, ha, -⟩ := hfits r (not_lt.mp hc)
    rw [hnone] at ha
    cases ha
  | some p =>
    obtain ⟨capacity, a⟩ := p
    obtain ⟨hmem, hleast⟩ := minByKey_spec hmin
    obtain ⟨r, hr, hfr⟩ := mem_filterMap.mp hmem
    have hcap : request.size ≤ r.blockCapacity pageSize request.size := by
      by_contra hc
      rw [hnofit r (not_le.mp hc)] at hfr
      cases hfr
    obtain ⟨a', ha', hplace, halen, hstart, hstop⟩ := hfits r hcap
    obtain ⟨rfl, rfl⟩ := Prod.mk.inj (Option.some.inj (ha'.symm.trans hfr))
    obtain ⟨l', hl', hcan, hall⟩ := takeRange_inside hl hr ⟨hstart, hstop⟩
    refine ⟨some a', l', by simp [hl'], hcan, halen ▸ hall, ?_, by simp⟩
    rintro b ⟨rfl⟩
    refine ⟨r, ⟨hr, hcap, ?_⟩, hplace⟩
    intro r' hr' hcap'
    obtain ⟨b, hb, -, -, hbs, hbt⟩ := hfits r' hcap'
    have hkey := hleast _ (mem_filterMap.mpr ⟨r', hr', hb⟩)
    rw [Prod.Lex.toLex_le_toLex] at hkey
    rcases hkey with hlt | ⟨heq, hle⟩
    · exact .inl hlt
    -- regions are in the order of the allocations inside them
    refine .inr ⟨heq, ?_⟩
    by_contra hc
    have hne : r' ≠ r := fun h => hc (h ▸ le_rfl)
    have hapart := hl.separated.apart hr' hr hne
    have := b.start_lt_stop
    have := r.start_lt_stop
    simp only at hle heq
    omega

end FreeList

end Hdf5Pure.Space
