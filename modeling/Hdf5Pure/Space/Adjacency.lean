import Hdf5Pure.Space.FreeListTheorems
import Hdf5Pure.Space.PageAdmission

/-!
# Adjacency in terms of bytes

Whether an extent merges into a list depends on the free bytes next to it only: a region of at least
`n` bytes touches the extent exactly if the next `n` bytes on that side are free.
-/

namespace Hdf5Pure.Space

open IntervalLists

def FreeBefore (bytes : Set ℕ) (n : ℕ) (e : Extent) : Prop :=
  n ≤ e.start ∧ Set.Ico (e.start - n) e.start ⊆ bytes

def FreeAfter (bytes : Set ℕ) (n : ℕ) (e : Extent) : Prop :=
  Set.Ico e.stop (e.stop + n) ⊆ bytes

lemma FreeBefore.mono {s t : Set ℕ} (h : FreeBefore s n e) (hst : s ⊆ t) : FreeBefore t n e :=
  ⟨h.1, h.2.trans hst⟩

lemma FreeAfter.mono {s t : Set ℕ} (h : FreeAfter s n e) (hst : s ⊆ t) : FreeAfter t n e :=
  h.trans hst

variable {regions : List Extent} {e : Extent} {n : ℕ}

lemma freeBefore_iff (hsep : SeparatedExtents regions) (hd : Disjoint (covered regions) e.bytes)
    (hn : 0 < n) :
    FreeBefore (covered regions) n e ↔ ∃ r ∈ regions, r.stop = e.start ∧ n ≤ r.len := by
  have hpos := e.start_lt_stop
  constructor
  · rintro ⟨hle, hsub⟩
    obtain ⟨r, hr, hstart, hstop⟩ :=
      hsep.exists_of_Ico_subset (show e.start - n < e.start by omega) hsub
    -- the region cannot reach into the extent
    have hends : r.stop = e.start := by
      by_contra hne
      have hin : e.start ∈ covered regions := ⟨r, hr, by omega, by omega⟩
      exact Set.disjoint_left.mp hd hin ⟨le_rfl, hpos⟩
    exact ⟨r, hr, hends, by rw [r.len_eq]; omega⟩
  · rintro ⟨r, hr, hends, hlen⟩
    rw [r.len_eq] at hlen
    refine ⟨by omega, ?_⟩
    rintro x ⟨hx, hx'⟩
    exact ⟨r, hr, by omega, by omega⟩

lemma freeAfter_iff (hsep : SeparatedExtents regions) (hd : Disjoint (covered regions) e.bytes)
    (hn : 0 < n) :
    FreeAfter (covered regions) n e ↔ ∃ r ∈ regions, r.start = e.stop ∧ n ≤ r.len := by
  have hpos := e.start_lt_stop
  constructor
  · intro hsub
    obtain ⟨r, hr, hstart, hstop⟩ :=
      hsep.exists_of_Ico_subset (show e.stop < e.stop + n by omega) hsub
    have hbegins : r.start = e.stop := by
      by_contra hne
      have hin : e.stop - 1 ∈ covered regions := ⟨r, hr, by omega, by omega⟩
      exact Set.disjoint_left.mp hd hin ⟨by omega, by omega⟩
    exact ⟨r, hr, hbegins, by rw [r.len_eq]; omega⟩
  · rintro ⟨r, hr, hbegins, hlen⟩
    rw [r.len_eq] at hlen
    rintro x ⟨hx, hx'⟩
    exact ⟨r, hr, by omega, by omega⟩

lemma FreeList.adjoins_iff {l : FreeList} (hl : l.Canonical) (hd : Disjoint l.bytes e.bytes) :
    l.adjoins e = true ↔ FreeBefore l.bytes 1 e ∨ FreeAfter l.bytes 1 e := by
  rw [FreeList.bytes, freeBefore_iff hl.separated hd one_pos,
    freeAfter_iff hl.separated hd one_pos]
  simp only [FreeList.adjoins, Bool.or_eq_true, List.any_eq_true, beq_iff_eq]
  have hlen : ∀ r : Extent, 1 ≤ r.len := fun r => r.len_pos
  simp only [hlen, and_true]

end Hdf5Pure.Space
