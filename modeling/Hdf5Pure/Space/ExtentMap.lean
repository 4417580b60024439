import Hdf5Pure.Space.FreeListTheorems
import Hdf5Pure.Utils.OrdMap

/-!
# Extents in address maps

The indexes of free lists hold their regions in an ordered map by start address. Inserting an extent
joins it with the regions before and after it where they touch; `Around` is the split it sees.
-/

namespace Hdf5Pure.Space

open IntervalLists List

/-- The regions around an extent that overlaps none: `previous` and `next` touch it, no other does.
-/
structure Around (regions : List Extent) (e : Extent) (pre : List Extent)
    (previous next : Option Extent) (post : List Extent) : Prop where
  split : regions = (pre ++ previous.toList) ++ (next.toList ++ post)
  pre_lt : ∀ a ∈ pre, a.stop < e.start
  previous_eq : ∀ a ∈ previous, a.stop = e.start
  next_eq : ∀ a ∈ next, a.start = e.stop
  post_lt : ∀ a ∈ post, e.stop < a.start

def unionStart (previous : Option Extent) (e : Extent) : ℕ := previous.elim e.start Extent.start

def unionStop (next : Option Extent) (e : Extent) : ℕ := next.elim e.stop Extent.stop

namespace Around

variable {regions pre post : List Extent} {e a : Extent} {previous next : Option Extent}
  (h : Around regions e pre previous next post)

include h

lemma stop_le_start (ha : a ∈ pre ++ previous.toList) : a.stop ≤ e.start := by
  rcases mem_append.mp ha with ha | ha
  · exact (h.pre_lt a ha).le
  · exact (h.previous_eq a (Option.mem_toList.mp ha)).le

lemma stop_le_of_mem (ha : a ∈ next.toList ++ post) : e.stop ≤ a.start := by
  rcases mem_append.mp ha with ha | ha
  · exact (h.next_eq a (Option.mem_toList.mp ha)).ge
  · exact (h.post_lt a ha).le

end Around

lemma exists_around {regions : List Extent} (hsep : SeparatedExtents regions) {e : Extent}
    (hd : ∀ r ∈ regions, r.stop ≤ e.start ∨ e.stop ≤ r.start) :
    ∃ pre previous next post, Around regions e pre previous next post := by
  induction regions with
  | nil => exact ⟨[], none, none, [], by simp, by simp, by simp, by simp, by simp⟩
  | cons r rest ih =>
    obtain ⟨hr, hrest⟩ := separated_cons.mp hsep
    obtain ⟨pre, previous, next, post, h⟩ := ih hrest fun a ha => hd a (by simp [ha])
    have hmem : ∀ a ∈ pre ++ previous.toList, a.stop ≤ e.start ∧ r.stop < a.start ∧ a.start < a.stop := by
      intro a ha
      exact ⟨h.stop_le_start ha, hr a (by rw [h.split]; exact mem_append_left _ ha),
        a.start_lt_stop⟩
    -- nothing lies between `r` and `e` once `r` reaches `e`
    have hempty : e.start ≤ r.stop → pre ++ previous.toList = [] := by
      intro hle
      rw [eq_nil_iff_forall_not_mem]
      intro a ha
      have := hmem a ha
      omega
    rcases lt_or_ge r.stop e.start with hlt | hge
    · refine ⟨r :: pre, previous, next, post, by simp [h.split], ?_, h.previous_eq, h.next_eq,
        h.post_lt⟩
      simpa [hlt] using h.pre_lt
    have hnil := hempty hge
    have hsplit := h.split
    rw [hnil, nil_append] at hsplit
    rcases hd r (by simp) with hle | hle
    · exact ⟨[], some r, next, post, by simp [hsplit], by simp, by simp; omega, h.next_eq,
        h.post_lt⟩
    have hafter : ∀ a ∈ rest, e.stop < a.start := by
      intro a ha
      have := hr a ha
      have := r.start_lt_stop
      omega
    rcases hle.lt_or_eq with hlt | heq
    · refine ⟨[], none, none, r :: rest, by simp, by simp, by simp, by simp, ?_⟩
      simpa [hlt] using hafter
    · exact ⟨[], none, some r, rest, by simp, by simp, by simp, by simp [heq], hafter⟩

namespace Around

variable {regions pre post : List Extent} {e : Extent} {previous next : Option Extent}

section

variable (h : Around regions e pre previous next post)

include h

lemma previous_spec :
    unionStart previous e ≤ e.start ∧
      covered previous.toList = Set.Ico (unionStart previous e) e.start ∧
      lens previous.toList = e.start - unionStart previous e := by
  cases previous with
  | none => simp [unionStart]
  | some a =>
    have heq := h.previous_eq a rfl
    have hpos := a.start_lt_stop
    have hlen := a.len_eq
    simp only [unionStart, Option.elim, Option.toList_some, covered_cons, covered_nil,
      Set.union_empty, lens_cons, lens_nil, Extent.bytes_eq, heq, true_and]
    omega

lemma next_spec :
    e.stop ≤ unionStop next e ∧ covered next.toList = Set.Ico e.stop (unionStop next e) ∧
      lens next.toList = unionStop next e - e.stop := by
  cases next with
  | none => simp [unionStop]
  | some a =>
    have heq := h.next_eq a rfl
    have hpos := a.start_lt_stop
    have hlen := a.len_eq
    simp only [unionStop, Option.elim, Option.toList_some, covered_cons, covered_nil,
      Set.union_empty, lens_cons, lens_nil, Extent.bytes_eq, ← heq, true_and]
    omega

lemma exists_union :
    ∃ run, Extent.between (unionStart previous e) (unionStop next e) = some run ∧
      run.start = unionStart previous e ∧ run.stop = unionStop next e := by
  have h1 := h.previous_spec.1
  have h2 := h.next_spec.1
  have h3 := e.start_lt_stop
  refine Extent.exists_between (by omega) ?_
  cases next with
  | none => exact e.stop_lt_limit
  | some a => exact a.stop_lt_limit

/-- Replacing the regions an extent touches by their union adds exactly the extent. -/
lemma union_spec (hsep : SeparatedExtents regions)
    {run : Extent} (hs : run.start = unionStart previous e) (ht : run.stop = unionStop next e) :
    SeparatedExtents (pre ++ run :: post) ∧ covered (pre ++ run :: post) = covered regions ∪ e.bytes ∧
      lens (pre ++ run :: post) = lens regions + e.len := by
  obtain ⟨hle1, hcov1, hlens1⟩ := h.previous_spec
  obtain ⟨hle2, hcov2, hlens2⟩ := h.next_spec
  have hpos := e.start_lt_stop
  have hpre := h.pre_lt
  have hpost := h.post_lt
  rw [h.split] at hsep
  refine ⟨?_, ?_, ?_⟩
  · obtain ⟨hleft, hright, hcross⟩ := separated_append.mp hsep
    obtain ⟨hpreSep, -, hpreCross⟩ := separated_append.mp hleft
    obtain ⟨-, hpostSep, hpostCross⟩ := separated_append.mp hright
    refine separated_append.mpr ⟨hpreSep, separated_cons.mpr ⟨?_, hpostSep⟩, ?_⟩
    · intro a ha
      rw [ht]
      cases next with
      | none => exact hpost a ha
      | some b => exact hpostCross b (by simp) a ha
    · intro a ha
      refine forall_mem_cons.mpr ⟨?_, fun b hb => hcross a (by simp [ha]) b (by simp [hb])⟩
      rw [hs]
      cases previous with
      | none => exact hpre a ha
      | some c => exact hpreCross a ha c (by simp)
  · have hrun : run.bytes = covered previous.toList ∪ e.bytes ∪ covered next.toList := by
      rw [hcov1, hcov2, Extent.bytes_eq, Extent.bytes_eq, hs, ht,
        Set.Ico_union_Ico_eq_Ico hle1 hpos.le, Set.Ico_union_Ico_eq_Ico (hle1.trans hpos.le) hle2]
    rw [h.split, covered_append, covered_cons, covered_append, covered_append, covered_append, hrun]
    ac_rfl
  · have hlen := run.len_eq
    have helen := e.len_eq
    rw [h.split]
    simp only [lens_append, lens_cons]
    omega

end

/-! ## Queries of an address map -/

variable {m : OrdMap ℕ Extent}

lemma lastBelow_eq (h : Around m.values e pre previous next post) (hm : m.Keyed Extent.start) :
    m.lastBelow e.start = (pre ++ previous.toList).getLast?.map fun a => (a.start, a) := by
  apply hm.lastBelow_eq h.split
  · intro a ha
    exact a.start_lt_stop.trans_le (h.stop_le_start ha)
  · intro a ha
    exact e.start_lt_stop.le.trans (h.stop_le_of_mem ha)

lemma firstFrom_eq (h : Around regions e pre previous next post) (hsep : SeparatedExtents regions)
    (hm : m.Keyed Extent.start) (hvalues : m.values = pre ++ (next.toList ++ post)) :
    m.firstFrom (unionStart previous e) = (next.toList ++ post).head?.map fun a => (a.start, a) := by
  apply hm.firstFrom_eq hvalues
  · intro a ha
    have hapos := a.start_lt_stop
    have hlt := h.pre_lt a ha
    cases hprev : previous with
    | none => exact hapos.trans hlt
    | some b =>
      rw [h.split, hprev] at hsep
      have hcross := (separated_append.mp (separated_append.mp hsep).1).2.2 a ha b (by simp)
      exact hapos.trans hcross
  · intro a ha
    exact (h.previous_spec.1.trans e.start_lt_stop.le).trans (h.stop_le_of_mem ha)

end Around

end Hdf5Pure.Space
