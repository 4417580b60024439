import Hdf5Pure.Space.PagedTheorems
import Hdf5Pure.Space.Persistence

/-!
# Pieces of extents and manager sections

The whole pages of an extent are one piece, and every other piece is what it has of one page. The
managers of a state hold the pieces of its regions, each once.
-/

namespace Hdf5Pure.Space

open Checked IntervalLists List

/-- The piece of `s` with the byte `x`: the whole pages, or the part of one page. -/
def IsPieceAt (ps : ℕ) (s q : Set ℕ) (x : ℕ) : Prop :=
  (x ∈ pagesWithin ps s ∧ q = pagesWithin ps s) ∨
    (x ∉ pagesWithin ps s ∧ q = {y | y ∈ s ∧ y / ps = x / ps})

variable {x : ℕ} {q : Extent} {l : List Extent}

lemma div_eq_div_iff_of_dvd {ps t : ℕ} (hps : 0 < ps) (ht : ps ∣ t) :
    x / ps = t / ps ↔ t ≤ x ∧ x < t + ps := by
  rw [Nat.div_eq_iff hps, Nat.div_mul_cancel ht]
  omega

/-- Bytes of one page lie in the whole pages of a set together. -/
lemma mem_pagesWithin_congr {ps y : ℕ} {s : Set ℕ} (h : y / ps = x / ps) :
    y ∈ pagesWithin ps s ↔ x ∈ pagesWithin ps s :=
  ⟨fun hy => wholePages_pagesWithin ps s y hy x h.symm, fun hx => wholePages_pagesWithin ps s x hx y h⟩

lemma isPieceAt_edge {ps t : ℕ} (hps : 0 < ps) {e : Extent} (ht : ps ∣ t)
    (hq : ∀ y, y ∈ q.bytes ↔ y ∈ e.bytes ∧ t ≤ y ∧ y < t + ps)
    (hpart : ∃ y, t ≤ y ∧ y < t + ps ∧ y ∉ e.bytes) (hx : x ∈ q.bytes) :
    IsPieceAt ps e.bytes q.bytes x := by
  have hpage := (div_eq_div_iff_of_dvd hps ht).mpr ((hq x).mp hx).2
  refine .inr ⟨fun hwhole => ?_, ?_⟩
  · obtain ⟨y, hy, hy', hnot⟩ := hpart
    exact hnot (hwhole y (((div_eq_div_iff_of_dvd hps ht).mpr ⟨hy, hy'⟩).trans hpage.symm))
  · ext y
    rw [hq y, Set.mem_ofPred_eq, hpage, div_eq_div_iff_of_dvd hps ht]

namespace PageParts

def pieces (parts : PageParts) : List Extent :=
  parts.leading.toList ++ parts.interior.toList ++ parts.trailing.toList

lemma count_eq (parts : PageParts) : parts.count = parts.pieces.length := by
  obtain ⟨leading, interior, trailing⟩ := parts
  cases leading <;> cases interior <;> cases trailing <;> rfl

lemma mem_between_toList {s t : ℕ} :
    q ∈ (Extent.between s t).toList ↔ q.start = s ∧ q.stop = t := by
  rw [Option.mem_toList, Extent.between_eq_some]

lemma covered_between (s t : ℕ) (ht : t < 2 ^ 64) :
    covered (Extent.between s t).toList = Set.Ico s t := by
  by_cases hlt : s < t
  · obtain ⟨q, hq, hstart, hstop⟩ := Extent.exists_between hlt ht
    rw [hq, Option.toList_some, covered_singleton, Extent.bytes_eq, hstart, hstop]
  · rw [Extent.between_eq_none (not_lt.mp hlt), Set.Ico_eq_empty hlt]
    exact covered_nil

section
variable (e : Extent) (pageSize : FileSpacePageSize)

lemma bytes_interior :
    covered (e.alignedInterior pageSize.get).toList = pagesWithin pageSize.get e.bytes := by
  have hps := pageSize.get_pos
  have hsep : SeparatedExtents [e] := separated_singleton
  have hcov := covered_interiors hps hsep
  rw [covered_singleton] at hcov
  rw [← hcov]
  cases hi : e.alignedInterior pageSize.get <;> simp [hi]

lemma boundary_eq : min
      ((checkedAdd e.start (pageSize.get - e.start % pageSize.get)).getD e.stop) e.stop =
    min (e.start / pageSize.get * pageSize.get + pageSize.get) e.stop := by
  have hps := pageSize.get_pos
  have hmod := Nat.mod_lt e.start hps
  have hdiv := Nat.div_add_mod' e.start pageSize.get
  have hlimit := e.stop_lt_limit
  unfold checkedAdd
  split_ifs with hlt
  · show min _ _ = _
    congr 1
    show e.start + (pageSize.get - e.start % pageSize.get) = _
    omega
  · show min e.stop e.stop = _
    omega

/-- An extent without a whole page ends before the second boundary. -/
lemma stop_lt_of_no_interior (hnone : e.alignedInterior pageSize.get = none) {t : ℕ}
    (ht : pageSize.get ∣ t) (hle : e.start ≤ t) : e.stop < t + pageSize.get := by
  have hps := pageSize.get_pos
  by_contra hge
  obtain ⟨i, hi, -⟩ := exists_alignedInterior hps ht (dvd_add ht dvd_rfl) (by omega) hle
    (not_lt.mp hge)
  rw [hnone] at hi
  cases hi

lemma covered_pieces : covered (new e pageSize).pieces = e.bytes := by
  have hlimit := e.stop_lt_limit
  have hpos := e.start_lt_stop
  unfold new
  cases hi : e.alignedInterior pageSize.get with
  | some i =>
    obtain ⟨-, -, hstart, -, hstop, -⟩ := Extent.alignedInterior_spec hi
    have hipos := i.start_lt_stop
    simp only [pieces, covered_append, covered_between _ _ (show i.start < 2 ^ 64 by omega),
      covered_between _ _ hlimit, Option.toList_some, covered_singleton]
    ext x
    simp only [Set.mem_union, Set.mem_Ico, Extent.mem_bytes]
    omega
  | none =>
    have hle : e.start ≤ e.start / pageSize.get * pageSize.get + pageSize.get := by
      have hps := pageSize.get_pos
      have hmod := Nat.mod_lt e.start hps
      have hdiv := Nat.div_add_mod' e.start pageSize.get
      omega
    simp only [boundary_eq]
    obtain ⟨b, hb⟩ : ∃ b, b = min (e.start / pageSize.get * pageSize.get + pageSize.get) e.stop :=
      ⟨_, rfl⟩
    have hbstart : e.start ≤ b := hb ▸ le_min hle hpos.le
    have hbstop : b ≤ e.stop := hb ▸ min_le_right _ _
    simp only [← hb, pieces, covered_append, Option.toList_none, covered_nil, Set.union_empty,
      covered_between _ _ (lt_of_le_of_lt hbstop hlimit), covered_between _ _ hlimit]
    rw [Set.Ico_union_Ico_eq_Ico hbstart hbstop]
    rfl

/-- Each piece is the whole pages of the extent or its part of one page. -/
lemma pieces_at (hq : q ∈ (new e pageSize).pieces) (hx : x ∈ q.bytes) :
    IsPieceAt pageSize.get e.bytes q.bytes x := by
  have hps := pageSize.get_pos
  have hqpos := q.start_lt_stop
  unfold new at hq
  cases hi : e.alignedInterior pageSize.get with
  | some i =>
    obtain ⟨hidvd, hidvd', hstart, hlt, hstop, hlt'⟩ := Extent.alignedInterior_spec hi
    have hinterior : i.bytes = pagesWithin pageSize.get e.bytes := by
      rw [← bytes_interior, hi, Option.toList_some, covered_singleton]
    have hipos := i.start_lt_stop
    simp only [hi, pieces, mem_append, Option.toList_some, mem_singleton,
      mem_between_toList] at hq
    rcases hq with (⟨hqs, hqt⟩ | rfl) | ⟨hqs, hqt⟩
    · -- the edge lies in the page before the interior
      have hge : pageSize.get ≤ i.start := Nat.le_of_dvd (by omega) hidvd
      refine isPieceAt_edge hps (Nat.dvd_sub hidvd dvd_rfl) ?_ ⟨_, le_rfl, by omega, ?_⟩ hx
      · intro y
        rw [Extent.mem_bytes, Extent.mem_bytes]
        omega
      · rw [Extent.mem_bytes]
        omega
    · exact .inl ⟨hinterior ▸ hx, hinterior⟩
    · refine isPieceAt_edge hps hidvd' ?_ ⟨e.stop, hstop, hlt', ?_⟩ hx
      · intro y
        rw [Extent.mem_bytes, Extent.mem_bytes]
        omega
      · rw [Extent.mem_bytes]
        omega
  | none =>
    obtain ⟨t, ht⟩ : ∃ t, t = e.start / pageSize.get * pageSize.get := ⟨_, rfl⟩
    have htdvd : pageSize.get ∣ t := ht ▸ Dvd.intro_left _ rfl
    have hmod := Nat.mod_lt e.start hps
    have hdiv := Nat.div_add_mod' e.start pageSize.get
    have hnext := stop_lt_of_no_interior e pageSize hi (dvd_add htdvd dvd_rfl) (by omega)
    simp only [hi, boundary_eq, ← ht, pieces, mem_append, Option.toList_none, not_mem_nil,
      or_false, mem_between_toList] at hq
    rcases hq with ⟨hqs, hqt⟩ | ⟨hqs, hqt⟩
    · refine isPieceAt_edge hps htdvd ?_ ?_ hx
      · intro y
        rw [Extent.mem_bytes, Extent.mem_bytes]
        omega
      · by_cases heq : t = e.start
        · have hshort := stop_lt_of_no_interior e pageSize hi htdvd heq.ge
          exact ⟨e.stop, by omega, hshort, by rw [Extent.mem_bytes]; omega⟩
        · exact ⟨t, le_rfl, by omega, by rw [Extent.mem_bytes]; omega⟩
    · refine isPieceAt_edge hps (dvd_add htdvd dvd_rfl) ?_ ⟨e.stop, by omega, hnext, ?_⟩ hx
      · intro y
        rw [Extent.mem_bytes, Extent.mem_bytes]
        omega
      · rw [Extent.mem_bytes]
        omega

lemma pieces_ascending : AscendingExtents (new e pageSize).pieces := by
  have hpair : ∀ {o : Option Extent}, AscendingExtents o.toList := by
    intro o
    cases o
    · exact List.Pairwise.nil
    · exact pairwise_singleton _ _
  unfold new
  cases hi : e.alignedInterior pageSize.get with
  | some i =>
    have hipos := i.start_lt_stop
    refine pairwise_append.mpr ⟨pairwise_append.mpr ⟨hpair, hpair, ?_⟩, hpair, ?_⟩
    · intro a ha b hb
      obtain ⟨-, hstop⟩ := mem_between_toList.mp ha
      rw [mem_singleton.mp hb]
      exact hstop.le
    · intro a ha b hb
      obtain ⟨hstart, -⟩ := mem_between_toList.mp hb
      rcases mem_append.mp ha with ha | ha
      · obtain ⟨-, hstop⟩ := mem_between_toList.mp ha
        omega
      · rw [mem_singleton.mp ha]
        exact hstart.ge
  | none =>
    refine pairwise_append.mpr ⟨pairwise_append.mpr ⟨hpair, hpair, by simp⟩, hpair, ?_⟩
    intro a ha b hb
    obtain ⟨hstart, -⟩ := mem_between_toList.mp hb
    rcases mem_append.mp ha with ha | ha
    · obtain ⟨-, hstop⟩ := mem_between_toList.mp ha
      exact (hstop.trans hstart.symm).le
    · cases ha

lemma pieces_subset (hq : q ∈ (new e pageSize).pieces) : q.bytes ⊆ e.bytes := by
  rw [← covered_pieces e pageSize]
  exact bytes_subset_covered hq

end

def edges (parts : PageParts) : List Extent := parts.leading.toList ++ parts.trailing.toList

lemma edges_perm (parts : PageParts) :
    (parts.edges ++ parts.interior.toList).Perm parts.pieces := by
  unfold edges pieces
  rw [append_assoc, append_assoc]
  exact List.Perm.append_left _ perm_append_comm

end PageParts

/-! ## Managers -/

lemma all_zip_tail {α : Type} {R : α → α → Bool} {l : List α}
    (h : l.Pairwise fun a b => R a b = true) : ((l.zip l.tail).all fun w => R w.1 w.2) = true := by
  induction l with
  | nil => rfl
  | cons a l ih =>
    cases l with
    | nil => rfl
    | cons b l =>
      obtain ⟨hab, hl⟩ := pairwise_cons.mp h
      simp only [tail_cons, zip_cons_cons, all_cons, Bool.and_eq_true]
      exact ⟨hab b (by simp), ih hl⟩

lemma append_append_perm {α : Type} (a b c d : List α) :
    ((a ++ b) ++ (c ++ d)).Perm ((a ++ c) ++ (b ++ d)) := by
  rw [← Multiset.coe_eq_coe]
  simp only [← Multiset.coe_add]
  exact add_add_add_comm _ _ _ _

namespace ManagerSections

lemma splitTyped_eq (pageSize : FileSpacePageSize) (small generic l : List Extent) :
    splitTyped pageSize small generic l =
      (small ++ l.flatMap (fun e => (PageParts.new e pageSize).edges),
        generic ++ l.flatMap fun e => (PageParts.new e pageSize).interior.toList) := by
  induction l generalizing small generic with
  | nil => simp [splitTyped]
  | cons e l ih =>
    rw [splitTyped, ih]
    simp [PageParts.edges]

def total (managers : List ManagerSections) : ℕ := (managers.map (·.sections.length)).sum

lemma total_filter (managers : List ManagerSections) :
    total (managers.filter fun manager => !manager.sections.isEmpty) = total managers := by
  induction managers with
  | nil => rfl
  | cons manager managers ih =>
    unfold total at ih ⊢
    cases hempty : manager.sections with
    | nil => simp [hempty, ih]
    | cons e l => simp [hempty, ih]

def smallSections (pageSize : FileSpacePageSize) (l : List Extent) : List Extent :=
  l.flatMap fun e => (PageParts.new e pageSize).edges

def wholeSections (pageSize : FileSpacePageSize) (l : List Extent) : List Extent :=
  l.flatMap fun e => (PageParts.new e pageSize).interior.toList

lemma smallSections_append_perm (pageSize : FileSpacePageSize) (l : List Extent) :
    (smallSections pageSize l ++ wholeSections pageSize l).Perm
      (l.flatMap fun e => (PageParts.new e pageSize).pieces) := by
  induction l with
  | nil => exact List.Perm.refl _
  | cons e l ih =>
    obtain ⟨parts, hparts⟩ : ∃ parts, parts = PageParts.new e pageSize := ⟨_, rfl⟩
    have hsmall : smallSections pageSize (e :: l) = parts.edges ++ smallSections pageSize l := by
      rw [hparts]
      rfl
    have hwhole : wholeSections pageSize (e :: l) =
        parts.interior.toList ++ wholeSections pageSize l := by
      rw [hparts]
      rfl
    rw [hsmall, hwhole, flatMap_cons, ← hparts]
    refine (append_append_perm _ _ _ _).trans (List.Perm.append parts.edges_perm ih)

lemma sum_count (pageSize : FileSpacePageSize) (l : List Extent) :
    (smallSections pageSize l).length + (wholeSections pageSize l).length =
      (l.map fun e => (PageParts.new e pageSize).count).sum := by
  rw [← length_append, (smallSections_append_perm pageSize l).length_eq, length_flatMap]
  simp only [PageParts.count_eq]

lemma pieces_pairwise (pageSize : FileSpacePageSize) (h : DisjointExtents l) :
    DisjointExtents (l.flatMap fun e => (PageParts.new e pageSize).pieces) := by
  refine pairwise_flatMap.mpr ⟨fun e _ => FreeList.pairwise_disjoint_of_ascending
    (PageParts.pieces_ascending e pageSize), h.imp fun {a b} hab q hq r hr => ?_⟩
  exact hab.mono (PageParts.pieces_subset a pageSize hq) (PageParts.pieces_subset b pageSize hr)

lemma covered_flatMap_pieces (pageSize : FileSpacePageSize) (l : List Extent) :
    covered (l.flatMap fun e => (PageParts.new e pageSize).pieces) = covered l := by
  induction l with
  | nil => rfl
  | cons e l ih => rw [flatMap_cons, covered_append, ih, PageParts.covered_pieces, covered_cons]

lemma pieces_append_pairwise (pageSize : FileSpacePageSize) {m : List Extent}
    (h : DisjointExtents (l ++ m)) :
    DisjointExtents (l.flatMap (fun e => (PageParts.new e pageSize).pieces) ++ m) := by
  obtain ⟨hl, hm, hcross⟩ := pairwise_append.mp h
  refine pairwise_append.mpr ⟨pieces_pairwise pageSize hl, hm, fun q hq b hb => ?_⟩
  obtain ⟨e, he, hq⟩ := mem_flatMap.mp hq
  exact (hcross e he b hb).mono_left (PageParts.pieces_subset e pageSize hq)

section
variable {pageSize : FileSpacePageSize} {metadata raw unclassified : List Extent}

lemma pagedLists_spec (h : DisjointExtents (metadata ++ raw ++ unclassified)) :
    ∃ generic, pagedLists metadata raw unclassified pageSize =
        .ok ([⟨.pagedSmallMetadata, smallSections pageSize metadata⟩,
          ⟨.pagedSmallRaw, smallSections pageSize raw⟩, ⟨.pagedLargeGeneric, generic⟩].filter
            fun manager => !manager.sections.isEmpty) ∧
      generic.Perm (wholeSections pageSize metadata ++ wholeSections pageSize raw ++ unclassified) ∧
      DisjointExtents (smallSections pageSize metadata ++ smallSections pageSize raw ++ generic) := by
  obtain ⟨generic, hgeneric⟩ : ∃ generic, generic =
    (wholeSections pageSize metadata ++ wholeSections pageSize raw ++ unclassified).mergeSort
      fun a b => decide (a.start ≤ b.start) := ⟨_, rfl⟩
  have hsort : generic.Perm
      (wholeSections pageSize metadata ++ wholeSections pageSize raw ++ unclassified) :=
    hgeneric ▸ mergeSort_perm _ _
  -- small and whole sections together are the pieces of the regions
  have hperm : (smallSections pageSize metadata ++ smallSections pageSize raw ++ generic).Perm
      ((metadata ++ raw).flatMap (fun e => (PageParts.new e pageSize).pieces) ++ unclassified) := by
    refine (hsort.append_left _).trans ?_
    rw [← append_assoc, flatMap_append]
    refine List.Perm.append_right _ ((append_append_perm _ _ _ _).trans ?_)
    exact (smallSections_append_perm pageSize metadata).append (smallSections_append_perm pageSize raw)
  have hdisj := (hperm.pairwise_iff fun {_ _} hab => hab.symm).mpr
    (pieces_append_pairwise pageSize h)
  have hasc : AscendingExtents generic := by
    have hpairs := (hsort.pairwise_iff fun {_ _} hab => hab.symm).mp
      (pairwise_append.mp hdisj).2.1
    exact hgeneric ▸ FreeList.ascending_of_sorted (FreeList.pairwise_mergeSort_start id _)
      (mergeSort_perm _ _) hpairs
  have hassert : ((generic.zip generic.tail).all fun w => decide (w.1.start < w.2.start)) = true := by
    refine all_zip_tail (R := fun a b => decide (a.start < b.start)) (hasc.imp fun {a b} hab => ?_)
    have hpos := a.start_lt_stop
    exact decide_eq_true (by omega)
  refine ⟨generic, ?_, hsort, hdisj⟩
  simp only [pagedLists, splitTyped_eq, nil_append]
  simp only [smallSections, wholeSections] at hgeneric ⊢
  rw [← hgeneric, hassert]
  rfl

/-- The managers of disjoint regions hold every piece and every unclassified region once. -/
lemma total_pagedLists (h : DisjointExtents (metadata ++ raw ++ unclassified)) :
    ∃ managers, pagedLists metadata raw unclassified pageSize = .ok managers ∧
      total managers = (metadata.map fun e => (PageParts.new e pageSize).count).sum +
        (raw.map fun e => (PageParts.new e pageSize).count).sum + unclassified.length := by
  obtain ⟨generic, hmanagers, hperm, -⟩ := pagedLists_spec h
  refine ⟨_, hmanagers, ?_⟩
  have hlen := hperm.length_eq
  rw [length_append, length_append] at hlen
  rw [total_filter, ← sum_count, ← sum_count]
  simp only [total, map_cons, map_nil, sum_cons, sum_nil]
  omega

end

end ManagerSections

end Hdf5Pure.Space
