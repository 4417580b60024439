import Hdf5Pure.Image.Buffered

/-!
# Absorbing writes

A write patches the run that contains it, extends the run that ends where it starts, or merges the
runs it touches. In each case the runs stay apart and hold the write and what they held elsewhere.
-/

namespace Hdf5Pure.Image

open List

open Edit (Error)

variable {k : ℕ} {v : Bytes} {absorbed : List ℕ}

namespace BufferedWrites

/-! ## Absorbing a write -/

/-- The effect of a write on the pending runs. -/
structure Absorbs (b b' : BufferedWrites) (offset : ℕ) (bytes : Bytes) : Prop where
  frame : b' = { b with runs := b'.runs, pendingBytes := b'.pendingBytes }
  apart : b'.runs.Apart
  pending : b'.pendingBytes = b'.runs.total
  holds : ∀ a x, b'.runs.Holds a x ↔
    if offset ≤ a ∧ a < offset + bytes.length then bytes[a - offset]? = some x
    else b.runs.Holds a x

variable {b : BufferedWrites} {offset : ℕ} {bytes : Bytes}

lemma runContaining_eq_some {stop : ℕ} (h : b.runContaining offset stop = some k) :
    ∃ v, b.runs.get? k = some v ∧ k ≤ offset ∧ stop ≤ k + v.length := by
  unfold runContaining at h
  cases hlast : b.runs.lastBelow (offset + 1) with
  | none => rw [hlast] at h; cases h
  | some e =>
    rw [hlast] at h
    obtain ⟨hstop, h⟩ := Option.ite_none_right_eq_some.mp h
    cases h
    obtain ⟨hget, hlt, -⟩ := OrdMap.lastBelow_eq_some hlast
    exact ⟨e.2, hget, Nat.le_of_lt_succ hlt, hstop⟩

lemma runEndingAt_eq_some {stop : ℕ} (h : b.runEndingAt offset stop = some k) :
    ∃ v, b.runs.get? k = some v ∧ k + v.length = offset ∧
      ∀ k' v', b.runs.get? k' = some v' → ¬ (offset ≤ k' ∧ k' ≤ stop) := by
  unfold runEndingAt at h
  cases hlast : b.runs.lastBelow offset with
  | none => rw [hlast] at h; cases h
  | some e =>
    rw [hlast] at h
    obtain ⟨hcond, h⟩ := Option.ite_none_right_eq_some.mp h
    cases h
    obtain ⟨hget, -, -⟩ := OrdMap.lastBelow_eq_some hlast
    refine ⟨e.2, hget, hcond.1, fun k' v' hk' hin => ?_⟩
    have hnone := any_eq_false.mp hcond.2 _ (OrdMap.get?_eq_some_iff.mp hk')
    simp [hin] at hnone

lemma absorbs_containing (hapart : b.runs.Apart) (hpend : b.pendingBytes = b.runs.total)
    (hget : b.runs.get? k = some v) (hle : k ≤ offset)
    (hstop : offset + bytes.length ≤ k + v.length) :
    Absorbs b { b with runs := b.runs.insert k (patch v (offset - k) bytes) } offset bytes := by
  have hbound : offset - k ≤ v.length := by omega
  have hlen : (patch v (offset - k) bytes).length = v.length := by
    rw [length_patch hbound]
    omega
  have hne : patch v (offset - k) bytes ≠ [] := by
    rw [← length_pos_iff, hlen]
    exact length_pos_iff.mpr (hapart.nonempty hget)
  have hrepl := RunMap.replaces_insert hget hne (by rw [hlen]) fun k' v' hk' hk => by
    rw [hlen]
    exact hapart.outside hget hk' hk
  refine ⟨rfl, hrepl.apart hapart, ?_, ?_⟩
  · have htotal := RunMap.total_insert_present hget (patch v (offset - k) bytes)
    simp only
    omega
  · apply hrepl.holds hapart hle (by rw [hlen]; exact hstop)
    · intro a hlow hhigh
      rw [getElem?_patch hbound, if_pos (by omega)]
      congr 1
      omega
    · intro a hlow hhigh hnot
      refine ⟨k, mem_singleton_self k, v, hget, hlow, by rw [hlen] at hhigh; exact hhigh, ?_⟩
      rw [getElem?_patch hbound, if_neg (by omega)]

lemma absorbs_extension (hapart : b.runs.Apart) (hpend : b.pendingBytes = b.runs.total)
    (hbytes : bytes ≠ []) (hget : b.runs.get? k = some v) (hend : k + v.length = offset)
    (hfree : ∀ k' v', b.runs.get? k' = some v' → ¬ (offset ≤ k' ∧ k' ≤ offset + bytes.length)) :
    Absorbs b { b with
      runs := b.runs.insert k (v ++ bytes)
      pendingBytes := b.pendingBytes + bytes.length } offset bytes := by
  have hlen : (v ++ bytes).length = v.length + bytes.length := length_append
  have hne : v ++ bytes ≠ [] := by simp [hbytes]
  have hrepl := RunMap.replaces_insert hget hne (by rw [hlen]; omega) fun k' v' hk' hk => by
    have hout := hapart.outside hget hk' hk
    have hnot := hfree k' v' hk'
    omega
  refine ⟨rfl, hrepl.apart hapart, ?_, ?_⟩
  · have htotal := RunMap.total_insert_present hget (v ++ bytes)
    simp only
    omega
  · apply hrepl.holds hapart (by omega) (by rw [hlen]; omega)
    · intro a hlow hhigh
      rw [getElem?_append_right (by omega)]
      congr 1
      omega
    · intro a hlow hhigh hnot
      have hlt : a < k + v.length := by rw [hlen] at hhigh; omega
      refine ⟨k, mem_singleton_self k, v, hget, hlow, hlt, ?_⟩
      rw [getElem?_append_left (by omega)]

/-- What the span to merge starts with. -/
structure MergeSpan (b : BufferedWrites) (offset stop lo hi : ℕ) : Prop where
  lo_le : lo ≤ offset
  le_hi : stop ≤ hi
  before : ∀ {k v}, b.runs.get? k = some v → k < lo → k + v.length < lo
  covered : ∀ a, (lo ≤ a ∧ a < offset) ∨ (stop ≤ a ∧ a < hi) →
    ∃ v, b.runs.get? lo = some v ∧ lo ≤ a ∧ a < lo + v.length

lemma mergeSpan_spec (hapart : b.runs.Apart) {stop lo hi : ℕ} (hstop : offset ≤ stop)
    (h : b.mergeSpan offset stop = (lo, hi)) : MergeSpan b offset stop lo hi := by
  unfold mergeSpan at h
  cases hlast : b.runs.lastBelow offset with
  | none =>
    rw [hlast] at h
    cases h
    refine ⟨le_rfl, le_rfl, fun hk hlt => ?_, fun a ha => by omega⟩
    exact absurd (OrdMap.lastBelow_eq_none hlast hk) (by omega)
  | some e =>
    rw [hlast] at h
    simp only at h
    obtain ⟨hget, hlt, hmax⟩ := OrdMap.lastBelow_eq_some hlast
    by_cases htouch : offset ≤ e.1 + e.2.length
    · rw [if_pos htouch] at h
      cases h
      refine ⟨hlt.le, le_max_left _ _, fun hk hlt' => hapart.apart hk hget hlt', fun a ha => ?_⟩
      exact ⟨e.2, hget, by omega, by omega⟩
    · rw [if_neg htouch] at h
      cases h
      refine ⟨le_rfl, le_rfl, fun {k v} hk hlt' => ?_, fun a ha => by omega⟩
      rcases (hmax k v hk hlt').lt_or_eq with hbelow | rfl
      · have hgap := hapart.apart hk hget hbelow
        omega
      · rw [hget, Option.some_inj] at hk
        subst hk
        omega

/-- The runs that touch a span, split from those that lie after it. -/
structure Touching (hi : ℕ) (taken left : List (ℕ × Bytes)) (hi' : ℕ) : Prop where
  le_hi : hi ≤ hi'
  taken_le : ∀ e ∈ taken, e.1 + e.2.length ≤ hi'
  left_gt : ∀ e ∈ left, hi' < e.1
  covered : ∀ a, hi ≤ a → a < hi' → ∃ e ∈ taken, e.1 ≤ a ∧ a < e.1 + e.2.length

lemma touching_spec {entries : List (ℕ × Bytes)} {hi hi' : ℕ} {absorbed : List ℕ}
    (hsort : entries.Pairwise (fun a b => a.1 < b.1)) (h : touching hi entries = (absorbed, hi'))
    :
    ∃ taken left, entries = taken ++ left ∧ absorbed = taken.map Prod.fst ∧
      Touching hi taken left hi' := by
  induction entries generalizing hi hi' absorbed with
  | nil =>
    cases h
    exact ⟨[], [], rfl, rfl, le_rfl, by simp, by simp, fun a hlow hhigh => by omega⟩
  | cons e entries ih =>
    obtain ⟨hfirst, hrest⟩ := pairwise_cons.mp hsort
    unfold touching at h
    by_cases hgt : hi < e.1
    · rw [if_pos hgt] at h
      cases h
      exact ⟨[], e :: entries, rfl, rfl, le_rfl, by simp, forall_mem_cons.mpr
        ⟨hgt, fun e' he' => hgt.trans (hfirst e' he')⟩, fun a hlow hhigh => by omega⟩
    · rw [if_neg hgt] at h
      cases hrec : touching (max hi (e.1 + e.2.length)) entries with
      | mk absorbed₁ hi₁ =>
      rw [hrec] at h
      cases h
      obtain ⟨taken, left, rfl, rfl, htouch⟩ := ih hrest hrec
      have hle := htouch.le_hi
      refine ⟨e :: taken, left, rfl, rfl, by omega,
        forall_mem_cons.mpr ⟨by omega, htouch.taken_le⟩, htouch.left_gt, ?_⟩
      -- what the first run does not cover, the rest does
      intro a hlow hhigh
      by_cases hin : a < e.1 + e.2.length
      · exact ⟨e, mem_cons_self, by omega, hin⟩
      · obtain ⟨e', he', hcover⟩ := htouch.covered a (by omega) hhigh
        exact ⟨e', mem_cons_of_mem _ he', hcover⟩

/-- The runs moved into a buffer. -/
structure Gathered (lo : ℕ) (absorbed : List ℕ) (b : BufferedWrites) (merged : Bytes)
    (b' : BufferedWrites) (merged' : Bytes) : Prop where
  frame : b' = { b with runs := b'.runs, pendingBytes := b'.pendingBytes }
  runs : ∀ k, b'.runs.get? k = if k ∈ absorbed then none else b.runs.get? k
  pending : b'.pendingBytes = b'.runs.total
  length : merged'.length = merged.length
  moved : ∀ k ∈ absorbed, ∀ v, b.runs.get? k = some v → ∀ a, k ≤ a → a < k + v.length →
    merged'[a - lo]? = v[a - k]?
  kept : ∀ a, lo ≤ a → (∀ k ∈ absorbed, ∀ v, b.runs.get? k = some v →
    ¬ (k ≤ a ∧ a < k + v.length)) → merged'[a - lo]? = merged[a - lo]?

lemma gather_spec {lo : ℕ} {b b' : BufferedWrites} {merged merged' : Bytes} (hnd : absorbed.Nodup)
    (hapart : b.runs.Apart) (hpend : b.pendingBytes = b.runs.total)
    (hruns : ∀ k ∈ absorbed, ∃ v, b.runs.get? k = some v ∧ lo ≤ k ∧
      k + v.length ≤ lo + merged.length) (h : gather lo absorbed b merged = (b', merged')) :
    Gathered lo absorbed b merged b' merged' := by
  induction absorbed generalizing b b' merged merged' with
  | nil =>
    cases h
    exact ⟨rfl, fun k => by simp, hpend, rfl, by simp, fun a _ _ => rfl⟩
  | cons k absorbed ih =>
    obtain ⟨hk, hnd⟩ := nodup_cons.mp hnd
    obtain ⟨v, hget, hlo, hhi⟩ := hruns k mem_cons_self
    have hbound : k - lo ≤ merged.length := by omega
    have hlen : (patch merged (k - lo) v).length = merged.length := by
      rw [length_patch hbound]
      omega
    have hrem : ∀ k', (b.runs.remove k).get? k' = if k' = k then none else b.runs.get? k' :=
      OrdMap.get?_remove b.runs k
    have hsub : ∀ {k' v'}, (b.runs.remove k).get? k' = some v' → b.runs.get? k' = some v' :=
      fun hk' => (OrdMap.get?_remove_eq_some.mp hk').2
    have hother : ∀ k' ∈ absorbed, (b.runs.remove k).get? k' = b.runs.get? k' := by
      intro k' hk'
      rw [hrem, if_neg]
      rintro rfl
      exact hk hk'
    unfold gather at h
    rw [hget] at h
    have hrest := ih hnd ⟨fun hk' => hapart.nonempty (hsub hk'),
      fun hk' hk'' => hapart.apart (hsub hk') (hsub hk'')⟩
      (by have htotal := RunMap.total_remove hget; simp only [Option.getD_some]; omega)
      (fun k' hk' => by
        obtain ⟨v', hget', hlo', hhi'⟩ := hruns k' (mem_cons_of_mem _ hk')
        exact ⟨v', (hother k' hk').trans hget', hlo', by rw [Option.getD_some, hlen]; exact hhi'⟩) h
    refine ⟨?_, ?_, hrest.pending, hrest.length.trans hlen, ?_, ?_⟩
    · rw [hrest.frame]
    · intro k'
      rw [hrest.runs, hrem]
      by_cases heq : k' = k <;> simp [heq]
    · intro k' hk' v' hget' a hle hlt
      rcases mem_cons.mp hk' with rfl | hk'
      · rw [hget, Option.some_inj] at hget'
        subst hget'
        -- the runs moved later do not reach into this one
        rw [hrest.kept a (by omega), Option.getD_some, getElem?_patch hbound, if_pos (by omega)]
        · congr 1
          omega
        · intro k₁ hk₁ v₁ hget₁ hin
          rw [hother k₁ hk₁] at hget₁
          exact hk (hapart.run_unique hget hget₁ hle hlt hin.1 hin.2 ▸ hk₁)
      · exact hrest.moved k' hk' v' ((hother k' hk').trans hget') a hle hlt
    · intro a hle hnot
      rw [hrest.kept a hle fun k' hk' v' hget' =>
          hnot k' (mem_cons_of_mem _ hk') v' (hsub hget'),
        Option.getD_some, getElem?_patch hbound, if_neg]
      have hfirst := hnot k mem_cons_self v hget
      omega

/-- The span that a write and the runs it touches fill. -/
structure Joined (b : BufferedWrites) (offset stop lo hi : ℕ) (absorbed : List ℕ) : Prop where
  lo_le : lo ≤ offset
  le_hi : stop ≤ hi
  nodup : absorbed.Nodup
  within : ∀ k ∈ absorbed, ∃ v, b.runs.get? k = some v ∧ lo ≤ k ∧ k + v.length ≤ hi
  outside : ∀ k, k ∉ absorbed → ∀ v, b.runs.get? k = some v → k + v.length < lo ∨ hi < k
  covered : ∀ a, lo ≤ a → a < hi → ¬ (offset ≤ a ∧ a < stop) →
    ∃ k ∈ absorbed, ∃ v, b.runs.get? k = some v ∧ k ≤ a ∧ a < k + v.length

/-- The runs that touch a write are consecutive runs of the map. -/
lemma joined_of_touching (hapart : b.runs.Apart) {stop lo hi hi' : ℕ} (hstop : offset ≤ stop)
    (hspan : b.mergeSpan offset stop = (lo, hi))
    (htouching : touching hi (b.runs.entries.filter fun e => decide (lo ≤ e.1)) = (absorbed, hi')) :
    Joined b offset stop lo hi' absorbed := by
  have hspan := mergeSpan_spec hapart hstop hspan
  obtain ⟨taken, left, hsplit, rfl, htouch⟩ := touching_spec (b.runs.sorted.filter _) htouching
  have hhi := hspan.le_hi
  have hhi' := htouch.le_hi
  -- a run from `lo` on is absorbed or lies after the span
  have hentry : ∀ {k v}, b.runs.get? k = some v → lo ≤ k → (k, v) ∈ taken ∨ hi' < k := by
    intro k v hk hle
    have hmem : (k, v) ∈ taken ++ left := by
      rw [← hsplit, mem_filter]
      exact ⟨OrdMap.get?_eq_some_iff.mp hk, decide_eq_true hle⟩
    exact (mem_append.mp hmem).imp_right (htouch.left_gt _)
  have htaken : ∀ e ∈ taken, b.runs.get? e.1 = some e.2 ∧ lo ≤ e.1 := by
    intro e he
    obtain ⟨hmem, hle⟩ := mem_filter.mp (hsplit ▸ mem_append_left left he)
    exact ⟨OrdMap.get?_eq_some_iff.mpr hmem, of_decide_eq_true hle⟩
  refine ⟨hspan.lo_le, by omega, ?_, ?_, ?_, ?_⟩
  · have hsub : (taken ++ left).Sublist b.runs.entries := hsplit ▸ filter_sublist
    exact b.runs.nodup_keys.sublist (((sublist_append_left _ _).trans hsub).map _)
  · intro k hk
    obtain ⟨e, he, rfl⟩ := mem_map.mp hk
    obtain ⟨hget, hle⟩ := htaken e he
    exact ⟨e.2, hget, hle, htouch.taken_le e he⟩
  · intro k hk v hget
    by_cases hlt : k < lo
    · exact .inl (hspan.before hget hlt)
    · exact (hentry hget (by omega)).imp_left fun hin => absurd (mem_map_of_mem hin) hk
  · intro a hlow hhigh hnot
    by_cases hin : (lo ≤ a ∧ a < offset) ∨ (stop ≤ a ∧ a < hi)
    · obtain ⟨v, hget, hle, hlt⟩ := hspan.covered a hin
      rcases hentry hget le_rfl with hmem | hgt
      · exact ⟨lo, mem_map_of_mem hmem, v, hget, hle, hlt⟩
      · omega
    · obtain ⟨e, he, hle, hlt⟩ := htouch.covered a (by omega) (by omega)
      exact ⟨e.1, mem_map_of_mem he, e.2, (htaken e he).1, hle, hlt⟩

/-- One run over the span replaces the runs that were moved into it. -/
lemma Joined.replaces {stop lo hi : ℕ} (h : Joined b offset stop lo hi absorbed)
    {b' : BufferedWrites} {merged run : Bytes} (hg : Gathered lo absorbed b merged b' run)
    {patched : Bytes} (hlen : lo + patched.length = hi) (hne : patched ≠ []) :
    b.runs.Replaces (b'.runs.insert lo patched) absorbed lo patched := by
  refine ⟨by rw [OrdMap.get?_insert, if_pos rfl], ?_, ?_, hne, ?_, hlen.symm ▸ h.outside⟩
  · intro k hk hne
    rw [OrdMap.get?_insert, if_neg hne, hg.runs, if_pos hk]
  · intro k hk hne
    rw [OrdMap.get?_insert, if_neg hne, hg.runs, if_neg hk]
  · intro k hk v hget
    obtain ⟨v', hget', hle⟩ := h.within k hk
    cases hget.symm.trans hget'
    exact hlen.symm ▸ hle

/-- The start of the span is free once the touching runs are taken out. -/
lemma Joined.free {stop lo hi : ℕ} (h : Joined b offset stop lo hi absorbed) (hlt : lo ≤ hi)
    {b' : BufferedWrites} {merged run : Bytes} (hg : Gathered lo absorbed b merged b' run) :
    b'.runs.get? lo = none := by
  rw [hg.runs]
  by_cases habs : lo ∈ absorbed
  · rw [if_pos habs]
  rw [if_neg habs]
  by_contra hsome
  obtain ⟨v, hv⟩ := Option.ne_none_iff_exists'.mp hsome
  have hout := h.outside lo habs v hv
  omega

lemma absorbs_merge (hapart : b.runs.Apart) (hpend : b.pendingBytes = b.runs.total)
    (hbytes : bytes ≠ []) {lo hi hi' : ℕ} {b' : BufferedWrites} {merged : Bytes}
    (hspan : b.mergeSpan offset (offset + bytes.length) = (lo, hi))
    (htouching : touching hi (b.runs.entries.filter fun e => decide (lo ≤ e.1)) = (absorbed, hi'))
    (hgather : gather lo absorbed b (replicate (hi' - lo) 0) = (b', merged)) :
    Absorbs b { b' with
      runs := b'.runs.insert lo (patch merged (offset - lo) bytes)
      pendingBytes := b'.pendingBytes + (patch merged (offset - lo) bytes).length }
      offset bytes := by
  have hjoined := joined_of_touching hapart (Nat.le_add_right _ _) hspan htouching
  have hlo := hjoined.lo_le
  have hhi := hjoined.le_hi
  have hpos : 0 < bytes.length := length_pos_iff.mpr hbytes
  have hg := gather_spec hjoined.nodup hapart hpend (fun k hk => by
    obtain ⟨v, hget, hle, hend⟩ := hjoined.within k hk
    exact ⟨v, hget, hle, by rw [length_replicate]; omega⟩) hgather
  have hmerged : merged.length = hi' - lo := hg.length.trans (length_replicate ..)
  have hbound : offset - lo ≤ merged.length := by omega
  have hlen : lo + (patch merged (offset - lo) bytes).length = hi' := by
    rw [length_patch hbound]
    omega
  have hrepl := hjoined.replaces hg hlen (length_pos_iff.mp (by omega))
  refine ⟨by rw [hg.frame], hrepl.apart hapart, ?_, ?_⟩
  · rw [RunMap.total_insert _ (hjoined.free (by omega) hg), hg.pending]
  · apply hrepl.holds hapart hlo (by omega)
    · intro a hlow hhigh
      rw [getElem?_patch hbound, if_pos (by omega)]
      congr 1
      omega
    · intro a hlow hhigh hnot
      obtain ⟨k, hk, v, hget, hle, hlt⟩ := hjoined.covered a hlow (by omega) hnot
      refine ⟨k, hk, v, hget, hle, hlt, ?_⟩
      rw [getElem?_patch hbound, if_neg (by omega)]
      exact hg.moved k hk v hget a hle hlt

/-- **Absorbing a write overrides the pending bytes at its addresses.** -/
theorem absorb_spec (hapart : b.runs.Apart) (hpend : b.pendingBytes = b.runs.total)
    (hbytes : bytes ≠ []) (offset : ℕ) : Absorbs b (b.absorb offset bytes) offset bytes := by
  unfold absorb
  cases hcontaining : b.runContaining offset (offset + bytes.length) with
  | some k =>
    obtain ⟨v, hget, hle, hstop⟩ := runContaining_eq_some hcontaining
    simp only [hcontaining, hget, Option.getD_some]
    exact absorbs_containing hapart hpend hget hle hstop
  | none =>
    cases hending : b.runEndingAt offset (offset + bytes.length) with
    | some k =>
      obtain ⟨v, hget, hend, hfree⟩ := runEndingAt_eq_some hending
      simp only [hcontaining, hending, hget, Option.getD_some]
      exact absorbs_extension hapart hpend hbytes hget hend hfree
    | none =>
      simp only [hcontaining, hending]
      exact absorbs_merge hapart hpend hbytes rfl rfl rfl

end BufferedWrites

end Hdf5Pure.Image
