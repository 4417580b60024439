import Hdf5Pure.Space.FreeListTheorems

/-!
# Removing and intersecting ranges of free lists

The two sweeps carry a cursor over the second list across the regions of the first: what a region
leaves behind can only meet later regions, since everything passed over ends before them.
-/

namespace Hdf5Pure.Space

open Checked IntervalLists List

/-- The parts of `r` below and above `e`; all of `r` when they do not overlap. -/
def pieces (e r : Extent) : List Extent :=
  (Extent.between r.start (min r.stop e.start)).toList ++
    (Extent.between (max r.start e.stop) r.stop).toList

/-- The extent between two addresses, as a list, covers exactly the bytes between them. -/
lemma between_toList {s t : ℕ} (ht : t < 2 ^ 64) :
    covered (Extent.between s t).toList = Set.Ico s t ∧ lens (Extent.between s t).toList = t - s ∧
      SeparatedExtents (Extent.between s t).toList ∧
      ∀ a ∈ (Extent.between s t).toList, a.start = s ∧ a.stop = t := by
  by_cases h : s < t
  · obtain ⟨u, hu, hus, hut⟩ := Extent.exists_between h ht
    have := u.len_eq
    simp only [hu, Option.toList_some, covered_cons, covered_nil, Set.union_empty, Extent.bytes_eq,
      hus, hut, lens_cons, lens_nil, mem_singleton, forall_eq, and_self, and_true, true_and]
    exact ⟨by omega, separated_singleton⟩
  · have hnone : Extent.between s t = none := Extent.between_eq_none (not_lt.mp h)
    rw [hnone, Set.Ico_eq_empty h]
    simp
    omega

lemma covered_pieces (e r : Extent) : covered (pieces e r) = r.bytes \ e.bytes := by
  have h1 := r.stop_lt_limit
  rw [pieces, covered_append, (between_toList (by omega)).1, (between_toList h1).1]
  ext x
  simp only [Set.mem_union, Set.mem_Ico, Set.mem_sdiff, Extent.mem_bytes]
  omega

lemma pieces_spec (e r : Extent) :
    SeparatedExtents (pieces e r) ∧ ∀ a ∈ pieces e r, r.start ≤ a.start ∧ a.stop ≤ r.stop := by
  have h1 := r.stop_lt_limit
  have h2 := e.start_lt_stop
  obtain ⟨-, -, hs1, hm1⟩ := between_toList (t := min r.stop e.start) (by omega)
  obtain ⟨-, -, hs2, hm2⟩ := between_toList h1
  constructor
  · refine separated_append.mpr ⟨hs1, hs2, ?_⟩
    intro a ha b hb
    have := hm1 a ha
    have := hm2 b hb
    omega
  · refine forall_mem_append.mpr ⟨fun a ha => ?_, fun a ha => ?_⟩
    · have := hm1 a ha
      omega
    · have := hm2 a ha
      omega

variable {r : Extent} {l : FreeList}

lemma pieces_of_disjoint {e : Extent} (h : r.stop ≤ e.start ∨ e.stop ≤ r.start) :
    pieces e r = [r] := by
  refine eq_of_covered_eq (pieces_spec e r).1 separated_singleton ?_
  rw [covered_pieces, covered_cons, covered_nil, Set.union_empty]
  exact (Extent.disjoint_iff.mpr h).sdiff_eq_left

namespace FreeList

/-- The remainders of an overlapped region are its `pieces`. -/
lemma remainders_eq {e : Extent} (h : e.start < r.stop ∧ r.start < e.stop) (whole : String) :
    remainders r e whole = .ok (pieces e r) := by
  have hlt := r.stop_lt_limit
  have hmin : min r.stop e.start = e.start := by omega
  have hmax : max r.start e.stop = e.stop := by omega
  simp only [remainders, pieces, hmin, hmax]
  by_cases h1 : r.start < e.start
  · obtain ⟨u, hu, -⟩ := Extent.exists_between h1 (by omega)
    by_cases h2 : e.stop < r.stop
    · obtain ⟨v, hv, -⟩ := Extent.exists_between h2 hlt
      simp [h1, h2, hu, hv]
    · simp [h1, h2, hu, Extent.between_eq_none (not_lt.mp h2)]
  · rw [Extent.between_eq_none (not_lt.mp h1)]
    by_cases h2 : e.stop < r.stop
    · obtain ⟨v, hv, -⟩ := Extent.exists_between h2 hlt
      simp [h1, h2, hv]
    · simp [h1, h2, Extent.between_eq_none (not_lt.mp h2)]

/-- The loop of `takeRange` replaces every region by its pieces. -/
lemma takeRangeLoop_spec (e : Extent) (rest out : List Extent) (total : ℕ)
    (htotal : lens rest ≤ total) :
    ∃ total', takeRangeLoop e out total rest = .ok (out ++ rest.flatMap (pieces e), total') ∧
      total' + lens rest = total + lens (rest.flatMap (pieces e)) := by
  induction rest generalizing out total with
  | nil => exact ⟨total, by simp [takeRangeLoop], by simp⟩
  | cons r rest ih =>
    rw [lens_cons] at htotal
    cases hmeet : r.intersection e with
    | none =>
      have hp : pieces e r = [r] := pieces_of_disjoint (Extent.intersection_eq_none hmeet)
      obtain ⟨total', hloop, hsum⟩ := ih (out ++ [r]) total (by omega)
      refine ⟨total', by simp [takeRangeLoop, hmeet, hloop, hp], ?_⟩
      simp only [flatMap_cons, hp, lens_append, lens_cons, lens_nil]
      omega
    | some o =>
      obtain ⟨hos, hot⟩ := Extent.intersection_eq_some.mp hmeet
      have ho := o.start_lt_stop
      have holen := o.len_eq
      have hrlen := r.len_eq
      have hlens : lens (pieces e r) + o.len = r.len := by
        have hlt := r.stop_lt_limit
        rw [pieces, lens_append, (between_toList (by omega)).2.1, (between_toList hlt).2.1]
        omega
      obtain ⟨total', hloop, hsum⟩ := ih (out ++ pieces e r) (total - o.len) (by omega)
      have hsub := subtractBytes_of_le (show o.len ≤ total by omega)
      refine ⟨total', ?_, ?_⟩
      · have hover : e.start < r.stop ∧ r.start < e.stop := by omega
        simp [takeRangeLoop, hmeet, hsub, remainders_eq hover, hloop]
      · simp only [flatMap_cons, lens_append, lens_cons]
        omega

/-- `takeRange` is set difference. -/
lemma takeRange_spec (hl : l.Canonical) (e : Extent) :
    ∃ l', l.takeRange e = .ok l' ∧ l'.Canonical ∧ l'.bytes = l.bytes \ e.bytes := by
  obtain ⟨total, hloop, hsum⟩ := takeRangeLoop_spec e l.regions [] _ (le_of_eq hl.total.symm)
  refine ⟨⟨l.regions.flatMap (pieces e), total⟩, by simp [takeRange, hloop], ⟨?_, ?_⟩, ?_⟩
  · exact hl.separated.flatMap fun a _ => pieces_spec e a
  · have := hl.total
    simp only at *
    omega
  · show covered (l.regions.flatMap (pieces e)) = covered l.regions \ e.bytes
    induction l.regions with
    | nil => simp
    | cons r rest ih =>
      rw [flatMap_cons, covered_append, covered_pieces, ih, covered_cons,
        Set.union_sdiff_distrib]

/-! ## Removing a list of ranges -/

/-- The ranges that the sweeps do not skip reach beyond `x`. -/
lemma dropWhile_lt_stop {l : List Extent} (hl : SeparatedExtents l) {x : ℕ}
    (hr : r ∈ l.dropWhile fun r => r.stop ≤ x) : x < r.stop := by
  simp only [← Nat.lt_succ_iff] at hr
  have := dropWhile_stop_le hl hr
  omega

/-- A sweep skips the ranges before a region and passes over those that end inside it. Neither meet
a later region, nor the skipped ones this one. -/
lemma sweep_region {rest right passed right' : List Extent} (hr : ∀ a ∈ rest, r.stop < a.start)
    (hright : SeparatedExtents right)
    (hsplit : right.dropWhile (fun d => d.stop ≤ r.start) = passed ++ right')
    (hpassed : ∀ d ∈ passed, d.stop ≤ r.stop) :
    SeparatedExtents right' ∧
      (∀ x ∈ r.bytes, x ∈ covered right ↔
        x ∈ covered (right.dropWhile fun d => d.stop ≤ r.start)) ∧
      ∀ x ∈ covered rest, x ∈ covered right ↔ x ∈ covered right' := by
  have hall := takeWhile_append_dropWhile (p := fun d : Extent => d.stop ≤ r.start) (l := right)
  have hskip : ∀ x ∈ covered (right.takeWhile fun d => d.stop ≤ r.start), x < r.start := by
    rintro x ⟨d, hd, hx⟩
    have hle : d.stop ≤ r.start := by simpa using mem_takeWhile_imp hd
    omega
  have hpass : ∀ x ∈ covered passed, x < r.stop := by
    rintro x ⟨d, hd, hx⟩
    have hle := hpassed d hd
    omega
  have hpos := r.start_lt_stop
  refine ⟨?_, fun x hx => ?_, fun x hx => ?_⟩
  · have hsub := (sublist_append_right passed right').trans (hsplit ▸ dropWhile_sublist _)
    exact hright.sublist hsub
  · conv_lhs => rw [← hall, covered_append]
    exact or_iff_right fun h => absurd (hskip x h) (not_lt.mpr hx.1)
  · obtain ⟨a, ha, hxa⟩ := hx
    have hlt := hr a ha
    conv_lhs => rw [← hall, hsplit, covered_append, covered_append]
    exact (or_iff_right fun h => absurd (hskip x h) (by omega)).trans
      (or_iff_right fun h => absurd (hpass x h) (by omega))

lemma lt_of_mem_covered {d : Extent} {l : List Extent} {x : ℕ} (hd : ∀ a ∈ l, d.stop < a.start)
    (hx : x ∈ covered l) : d.stop < x := by
  obtain ⟨a, ha, hle, -⟩ := hx
  exact (hd a ha).trans_le hle

/-- What one region keeps: separated pieces before the cursor `start'` and the rest from there,
together the bytes from `start` on that no removal covers. The removals passed over end inside it.
-/
lemma takeFromRegion_spec (r : Extent) (out : List Extent) {removed : List Extent}
    (hsep : SeparatedExtents removed) (start total : ℕ) (hstart : start < r.stop)
    (hreach : ∀ d ∈ removed, start < d.stop) (htotal : r.stop - start ≤ total) :
    ∃ start' kept total' passed removed',
      takeFromRegion r start out total removed = .ok (start', out ++ kept, total', removed') ∧
      removed = passed ++ removed' ∧ (∀ d ∈ passed, d.stop ≤ r.stop) ∧
      start ≤ start' ∧ start' ≤ r.stop ∧ SeparatedExtents kept ∧
      (∀ a ∈ kept, start ≤ a.start ∧ a.stop < start') ∧
      covered kept ∪ Set.Ico start' r.stop = Set.Ico start r.stop \ covered removed ∧
      total' + (r.stop - start) = total + lens kept + (r.stop - start') := by
  induction removed generalizing start total out with
  | nil =>
    exact ⟨start, [], total, [], [], by simp [takeFromRegion], rfl, by simp, le_rfl, hstart.le,
      separated_nil, by simp, by simp, by simp⟩
  | cons d removed ih =>
    obtain ⟨hd, hrest⟩ := separated_cons.mp hsep
    have hdpos := d.start_lt_stop
    have hdlt := d.stop_lt_limit
    have hreachd := hreach d (by simp)
    by_cases hbeyond : r.stop ≤ d.start
    · refine ⟨start, [], total, [], d :: removed, by simp [takeFromRegion, hbeyond], rfl, by simp,
        le_rfl, hstart.le, separated_nil, by simp, ?_, by simp⟩
      -- the removals lie above the region
      ext x
      have habove := @lt_of_mem_covered d removed x hd
      simp only [covered_nil, covered_cons, Set.empty_union, Set.mem_sdiff, Set.mem_union, Set.mem_Ico,
        Extent.mem_bytes]
      grind
    · obtain ⟨hhead, hheadlen, hheadsep, hheadmem⟩ :=
        between_toList (t := d.start) (by omega)
      obtain ⟨o, ho, hos, hot⟩ := Extent.exists_between (s := max start d.start)
        (t := min d.stop r.stop) (by omega) (by omega)
      have holen := o.len_eq
      have hsub := subtractBytes_of_le (show o.len ≤ total by omega)
      by_cases hlast : r.stop ≤ d.stop
      · refine ⟨r.stop, (Extent.between start d.start).toList, total - o.len, [], d :: removed, ?_,
          rfl, by simp, hstart.le, le_rfl, hheadsep, ?_, ?_, ?_⟩
        · have hmin : min d.stop r.stop = r.stop := by omega
          rw [hmin] at ho
          simp [takeFromRegion, hbeyond, ho, hsub, hlast]
        · intro a ha
          have := hheadmem a ha
          omega
        · rw [hhead, Set.Ico_self, Set.union_empty]
          ext x
          have habove := @lt_of_mem_covered d removed x hd
          simp only [Set.mem_Ico, Set.mem_sdiff, covered_cons, Set.mem_union, Extent.mem_bytes]
          grind
        · rw [hheadlen]
          omega
      · have hmin : min d.stop r.stop = d.stop := by omega
        rw [hmin] at ho hot
        obtain ⟨start', kept, total', passed, removed', hloop, hsplit, hpassed, hle, hler, hks, hkm,
          hkc, hsum⟩ := ih (out ++ (Extent.between start d.start).toList) hrest d.stop
            (total - o.len) (by omega)
            (fun a ha => by have := hd a ha; have := a.start_lt_stop; omega) (by omega)
        refine ⟨start', (Extent.between start d.start).toList ++ kept, total', d :: passed, removed',
          ?_, by simp [hsplit], ?_, by omega, hler, ?_, ?_, ?_, ?_⟩
        · simp [takeFromRegion, hbeyond, hmin, ho, hsub, hlast, hloop]
        · exact forall_mem_cons.mpr ⟨by omega, hpassed⟩
        · refine separated_append.mpr ⟨hheadsep, hks, ?_⟩
          intro a ha b hb
          have := hheadmem a ha
          have := hkm b hb
          omega
        · refine forall_mem_append.mpr ⟨fun a ha => ?_, fun a ha => ?_⟩
          · have := hheadmem a ha
            omega
          · have := hkm a ha
            omega
        · rw [covered_append, hhead, Set.union_assoc, hkc]
          ext x
          have habove := @lt_of_mem_covered d removed x hd
          simp only [Set.mem_union, Set.mem_Ico, Set.mem_sdiff, covered_cons, Extent.mem_bytes]
          grind
        · rw [lens_append, hheadlen]
          omega

/-- The loop of `takeRanges`: what is kept lies inside the remaining regions and is their bytes
that no removal covers. -/
lemma takeRangesLoop_spec {rest removed : List Extent} (hrest : SeparatedExtents rest)
    (hremoved : SeparatedExtents removed) (out : List Extent) (total : ℕ)
    (htotal : lens rest ≤ total) :
    ∃ kept total', takeRangesLoop out total removed rest = .ok (out ++ kept, total') ∧
      SeparatedExtents kept ∧
      (∀ a ∈ kept, ∃ r ∈ rest, r.start ≤ a.start ∧ a.stop ≤ r.stop) ∧
      covered kept = covered rest \ covered removed ∧
      total' + lens rest = total + lens kept := by
  induction rest generalizing removed out total with
  | nil => exact ⟨[], total, by simp [takeRangesLoop], separated_nil, by simp, by simp, by simp⟩
  | cons r rest ih =>
    obtain ⟨hr, hrest⟩ := separated_cons.mp hrest
    have hpos := r.start_lt_stop
    have hrlen := r.len_eq
    rw [lens_cons] at htotal
    obtain ⟨start', kept, total', passed, removed', hreg, hsplit, hpassed, hle, hler, hks, hkm,
      hkc, hsum⟩ := takeFromRegion_spec r out (hremoved.sublist (dropWhile_sublist _)) r.start
        total hpos (fun d hd => dropWhile_lt_stop hremoved hd) (by omega)
    obtain ⟨hsep', hmeet, hlater⟩ := sweep_region hr hremoved hsplit hpassed
    obtain ⟨htail, htaillen, htailsep, htailmem⟩ :=
      between_toList r.stop_lt_limit
    obtain ⟨kept', total'', hloop, hks', hkm', hkc', hsum'⟩ :=
      ih hrest hsep' ((out ++ kept) ++ (Extent.between start' r.stop).toList) total'
        (by omega)
    have hmine : ∀ a ∈ kept ++ (Extent.between start' r.stop).toList,
        r.start ≤ a.start ∧ a.stop ≤ r.stop := by
      refine forall_mem_append.mpr ⟨fun a ha => ?_, fun a ha => ?_⟩
      · have := hkm a ha
        omega
      · have := htailmem a ha
        omega
    refine ⟨kept ++ (Extent.between start' r.stop).toList ++ kept', total'', ?_, ?_, ?_, ?_, ?_⟩
    · simp only [takeRangesLoop, hreg, ok_bind]
      rw [hloop]
      simp
    · refine separated_append.mpr ⟨separated_append.mpr ⟨hks, htailsep, ?_⟩, hks', ?_⟩
      · intro a ha b hb
        have := hkm a ha
        have := htailmem b hb
        omega
      · intro a ha b hb
        obtain ⟨r', hr', hb⟩ := hkm' b hb
        have := hr r' hr'
        have := hmine a ha
        omega
    · intro a ha
      rcases mem_append.mp ha with ha | ha
      · exact ⟨r, by simp, hmine a ha⟩
      · obtain ⟨r', hr', h⟩ := hkm' a ha
        exact ⟨r', by simp [hr'], h⟩
    · rw [covered_append, covered_append, htail, hkc, hkc', covered_cons, ← Extent.bytes_eq]
      ext x
      simp only [Set.mem_union, Set.mem_sdiff, or_and_right]
      exact or_congr (and_congr_right fun hx => not_congr (hmeet x hx).symm)
        (and_congr_right fun hx => not_congr (hlater x hx).symm)
    · simp only [lens_append, lens_cons, htaillen]
      omega

/-- `takeRanges` is set difference. -/
lemma takeRanges_spec {ranges : FreeList} (hl : l.Canonical) (hr : ranges.Canonical) :
    ∃ l', l.takeRanges ranges = .ok l' ∧ l'.Canonical ∧ l'.bytes = l.bytes \ ranges.bytes := by
  by_cases hempty : l.regions.isEmpty || ranges.regions.isEmpty
  · refine ⟨l, by simp [takeRanges, hempty], hl, ?_⟩
    rcases Bool.or_eq_true_iff.mp hempty with h | h <;> simp [bytes, isEmpty_iff.mp h]
  · obtain ⟨kept, total, hloop, hsep, -, hcov, hsum⟩ :=
      takeRangesLoop_spec hl.separated hr.separated [] _ (le_of_eq hl.total.symm)
    refine ⟨⟨kept, total⟩, ?_, ⟨hsep, ?_⟩, hcov⟩
    · simp [takeRanges, hempty, hloop]
    · have := hl.total
      simp only at *
      omega

/-! ## Intersection -/

lemma intersectRegion_spec (r : Extent) (out : List Extent) {right : List Extent}
    (hsep : SeparatedExtents right) (hreach : ∀ d ∈ right, r.start < d.stop) :
    ∃ found passed right', intersectRegion r out right = (out ++ found, right') ∧
      right = passed ++ right' ∧ (∀ d ∈ passed, d.stop ≤ r.stop) ∧ SeparatedExtents found ∧
      (∀ a ∈ found, r.start ≤ a.start ∧ a.stop ≤ r.stop ∧ ∃ d ∈ right, d.start ≤ a.start) ∧
      covered found = r.bytes ∩ covered right := by
  induction right generalizing out with
  | nil => exact ⟨[], [], [], by simp [intersectRegion], rfl, by simp, separated_nil, by simp, by simp⟩
  | cons d right ih =>
    obtain ⟨hd, hrest⟩ := separated_cons.mp hsep
    have hdpos := d.start_lt_stop
    have hrpos := r.start_lt_stop
    have hreachd := hreach d (by simp)
    by_cases hbeyond : r.stop ≤ d.start
    · refine ⟨[], [], d :: right, by simp [intersectRegion, hbeyond], rfl, by simp, separated_nil,
        by simp, ?_⟩
      ext x
      have habove := @lt_of_mem_covered d right x hd
      simp only [covered_nil, covered_cons, Set.mem_empty_iff_false, Set.mem_inter_iff, Set.mem_union,
        Extent.mem_bytes]
      grind
    · have hlt := d.stop_lt_limit
      obtain ⟨o, -, hos, hot⟩ := Extent.exists_between (s := max r.start d.start)
        (t := min r.stop d.stop) (by omega) (by omega)
      have ho : r.intersection d = some o := Extent.intersection_eq_some.mpr ⟨hos, hot⟩
      have hobytes : o.bytes = r.bytes ∩ d.bytes := by
        ext x
        simp only [Extent.mem_bytes, Set.mem_inter_iff, hos, hot]
        omega
      by_cases hlast : r.stop ≤ d.stop
      · refine ⟨[o], [], d :: right, ?_, rfl, by simp, separated_singleton, ?_, ?_⟩
        · simp [intersectRegion, hbeyond, ho, hlast]
        · simp only [mem_singleton, forall_eq]
          exact ⟨by omega, by omega, d, by simp, by omega⟩
        · have hnone : r.bytes ∩ covered right = ∅ := by
            ext x
            have habove := @lt_of_mem_covered d right x hd
            simp only [Set.mem_inter_iff, Extent.mem_bytes, Set.mem_empty_iff_false]
            grind
          rw [covered_cons, covered_nil, covered_cons, Set.inter_union_distrib_left, hnone, hobytes]
      · obtain ⟨found, passed, right', hloop, hsplit, hpassed, hfs, hfm, hfc⟩ :=
          ih (out ++ [o]) hrest fun a ha => hreach a (by simp [ha])
        refine ⟨o :: found, d :: passed, right', ?_, by simp [hsplit], ?_, ?_, ?_, ?_⟩
        · simp [intersectRegion, hbeyond, ho, hlast, hloop]
        · exact forall_mem_cons.mpr ⟨by omega, hpassed⟩
        · refine separated_cons.mpr ⟨?_, hfs⟩
          intro a ha
          obtain ⟨-, -, b, hb, hle⟩ := hfm a ha
          have := hd b hb
          omega
        · refine forall_mem_cons.mpr ⟨⟨by omega, by omega, d, by simp, by omega⟩, fun a ha => ?_⟩
          obtain ⟨h1, h2, b, hb, hle⟩ := hfm a ha
          exact ⟨h1, h2, b, by simp [hb], hle⟩
        · rw [covered_cons, covered_cons, hfc, hobytes, Set.inter_union_distrib_left]

/-- The overlaps of two canonical lists are separated and cover their common bytes. -/
lemma intersectionLoop_spec {rest right : List Extent} (hrest : SeparatedExtents rest)
    (hright : SeparatedExtents right) (out : List Extent) :
    ∃ found, intersectionLoop out right rest = out ++ found ∧ SeparatedExtents found ∧
      (∀ a ∈ found, ∃ r ∈ rest, r.start ≤ a.start ∧ a.stop ≤ r.stop) ∧
      covered found = covered rest ∩ covered right := by
  induction rest generalizing right out with
  | nil => exact ⟨[], by simp [intersectionLoop], separated_nil, by simp, by simp⟩
  | cons r rest ih =>
    obtain ⟨hr, hrest⟩ := separated_cons.mp hrest
    obtain ⟨found, passed, right', hreg, hsplit, hpassed, hfs, hfm, hfc⟩ :=
      intersectRegion_spec r out (hright.sublist (dropWhile_sublist _))
        fun d hd => dropWhile_lt_stop hright hd
    obtain ⟨hsep', hmeet, hlater⟩ := sweep_region hr hright hsplit hpassed
    obtain ⟨found', hloop, hfs', hfm', hfc'⟩ := ih hrest hsep' (out ++ found)
    refine ⟨found ++ found', ?_, ?_, ?_, ?_⟩
    · simp only [intersectionLoop, hreg]
      rw [hloop, append_assoc]
    · refine separated_append.mpr ⟨hfs, hfs', ?_⟩
      intro a ha b hb
      obtain ⟨r', hr', hb⟩ := hfm' b hb
      have := hr r' hr'
      have := hfm a ha
      omega
    · intro a ha
      rcases mem_append.mp ha with ha | ha
      · exact ⟨r, by simp, (hfm a ha).1, (hfm a ha).2.1⟩
      · obtain ⟨r', hr', h⟩ := hfm' a ha
        exact ⟨r', by simp [hr'], h⟩
    · rw [covered_append, hfc, hfc', covered_cons, Set.union_inter_distrib_right]
      ext x
      exact or_congr (and_congr_right fun hx => (hmeet x hx).symm)
        (and_congr_right fun hx => (hlater x hx).symm)

/-- `intersection` is set intersection. -/
lemma intersection_spec {m : FreeList} (hl : l.Canonical) (hm : m.Canonical) :
    ∃ l', l.intersection m = .ok l' ∧ l'.Canonical ∧ l'.bytes = l.bytes ∩ m.bytes := by
  obtain ⟨found, hloop, hsep, -, hcov⟩ := intersectionLoop_spec hl.separated hm.separated []
  obtain ⟨l', hl', hcan, hbytes⟩ := fromSorted_of_ascending hsep.ascending
  refine ⟨l', ?_, hcan, by rw [hbytes, hcov]; rfl⟩
  simp only [intersection, hloop, nil_append, hl', ok_bind]

/-! ## The end of allocation -/

/-- `takeTrailing` removes the region that ends at `eof`, if there is one. -/
lemma takeTrailing_spec (hl : l.Canonical) (eof : ℕ) :
    ∃ result l', l.takeTrailing eof = .ok (result, l') ∧ l'.Canonical ∧
      (∀ start, result = some start → start < eof ∧ Set.Ico start eof ⊆ l.bytes ∧
        l'.bytes = l.bytes \ Set.Ico start eof) ∧
      (result = none → l' = l ∧ ∀ r ∈ l.regions.getLast?, r.stop ≠ eof) := by
  rcases eq_nil_or_concat' l.regions with hnil | ⟨pre, last, hlast⟩
  · exact ⟨none, l, by simp [takeTrailing, hnil], hl, by simp, by simp [hnil]⟩
  by_cases hend : last.stop = eof
  · have htotal := hl.total
    have hsep := hl.separated
    rw [hlast] at htotal hsep
    simp only [lens_append, lens_cons, lens_nil, add_zero] at htotal
    have hsub := subtractBytes_of_le (show last.len ≤ l.totalBytes by omega)
    refine ⟨some last.start, ⟨pre, l.totalBytes - last.len⟩, ?_, ⟨?_, ?_⟩, ?_, by simp⟩
    · simp [takeTrailing, hlast, hend, hsub]
    · exact (separated_append.mp hsep).1
    · simp only
      omega
    · rintro start ⟨rfl⟩
      subst hend
      refine ⟨last.start_lt_stop, ?_, ?_⟩
      · exact bytes_subset_covered (by simp [hlast])
      · have hd := hsep.ascending.disjoint_rest
        rw [support_nil, Set.union_empty] at hd
        simp only [bytes, hlast, covered_append, covered_cons, covered_nil, Set.union_empty,
          ← Extent.bytes_eq, Set.union_sdiff_right]
        exact hd.sdiff_eq_left.symm
  · refine ⟨none, l, ?_, hl, by simp, ?_⟩
    · simp [takeTrailing, hlast, hend]
    · simpa [hlast] using hend

/-- Every byte of the run that `runStart` finds is covered. -/
lemma runStart_spec {A : Set ℕ} {eof : ℕ} (d : List Extent) (hd : covered d ⊆ A) {start : ℕ}
    (hstart : Set.Ico start eof ⊆ A) :
    runStart start d ≤ start ∧ Set.Ico (runStart start d) eof ⊆ A := by
  induction d generalizing start with
  | nil => exact ⟨le_rfl, hstart⟩
  | cons e d ih =>
    rw [covered_cons, Set.union_subset_iff] at hd
    rw [runStart]
    split
    · exact ⟨le_rfl, hstart⟩
    have hnew : Set.Ico (min start e.start) eof ⊆ A := by
      intro x hx
      by_cases h : start ≤ x
      · exact hstart ⟨h, hx.2⟩
      · have := hx.1
        exact hd.1 ⟨by omega, by omega⟩
    obtain ⟨h1, h2⟩ := ih hd.2 hnew
    exact ⟨h1.trans (min_le_left _ _), h2⟩

/-- The trailing run lies below `eof` and is free. -/
lemma trailingRunStart_spec (lists : List FreeList) (eof : ℕ) :
    trailingRunStart lists eof ≤ eof ∧
      Set.Ico (trailingRunStart lists eof) eof ⊆ unionBytes lists := by
  refine runStart_spec _ ?_ (by simp)
  rw [covered_perm ((reverse_perm _).trans (mergeSort_perm _ _)), ← covered_flatten,
    flatMap_def]

/-- `releaseTrailingRun` removes free bytes that end at `eoa` and returns where they start. -/
lemma releaseTrailingRun_spec (hl : l.Canonical) (eoa tailLen : ℕ) :
    ∃ eoa' l', l.releaseTrailingRun eoa tailLen = .ok (eoa', l') ∧ l'.Canonical ∧ eoa' ≤ eoa ∧
      Set.Ico eoa' eoa ⊆ l.bytes ∧ l'.bytes = l.bytes \ Set.Ico eoa' eoa := by
  have hkeep : l.bytes = l.bytes \ Set.Ico eoa eoa := by simp
  have hsame : ∃ eoa' l', Except.ok (eoa, l) = (.ok (eoa', l') : Checked (ℕ × FreeList)) ∧
      l'.Canonical ∧ eoa' ≤ eoa ∧ Set.Ico eoa' eoa ⊆ l.bytes ∧
      l'.bytes = l.bytes \ Set.Ico eoa' eoa :=
    ⟨eoa, l, rfl, hl, le_rfl, by simp, hkeep⟩
  obtain ⟨-, hrun⟩ := trailingRunStart_spec [l] eoa
  have hone : unionBytes [l] = l.bytes := by
    ext x
    simp [unionBytes]
  rw [hone] at hrun
  unfold releaseTrailingRun
  simp only
  split
  · exact hsame
  split
  · exact hsame
  split_ifs
  · exact hsame
  split
  · exact hsame
  rename_i cut hcut
  obtain ⟨-, rfl⟩ := checkedAdd_eq_some.mp hcut
  split
  · exact hsame
  rename_i released hreleased
  obtain ⟨hs, ht⟩ := Extent.between_eq_some.mp hreleased
  have hpos := released.start_lt_stop
  obtain ⟨l', hl', hcan, hbytes⟩ := takeRange_spec hl released
  refine ⟨_, l', by simp [hl']; rfl, hcan, by omega, ?_, ?_⟩
  · exact fun x hx => hrun ⟨le_trans (Nat.le_add_right _ _) hx.1, hx.2⟩
  · rw [hbytes, Extent.bytes_eq, hs, ht]

end FreeList

end Hdf5Pure.Space
