import Hdf5Pure.Space.FlatAdmissionTheorems
import Hdf5Pure.Space.Session

/-!
# A flat release shrinks the file as far as it can

The end of allocation is lowered over the dropped extents that end it and then over the trailing
region. Dropped and tracked bytes never touch, so that one of the two steps does nothing.
-/

namespace Hdf5Pure.Space

open List hiding Disjoint

open Checked IntervalLists Saturation TrackedSpace

variable {eoa eof : ℕ} {l dropped : List Extent}

namespace FreeList

/-! ## Lowering the end over dropped extents -/

lemma foldl_shrinkBy_of_lt (h : ∀ d ∈ l, d.stop < eoa) : l.foldl shrinkBy eoa = eoa := by
  induction l with
  | nil => rfl
  | cons d l ih =>
    have hd := h d mem_cons_self
    rw [foldl_cons, shrinkBy, if_neg hd.ne]
    exact ih fun e he => h e (mem_cons_of_mem _ he)

/-- Over descending extents the fold stops at the first gap. -/
lemma foldl_shrinkBy_spec (hdesc : l.Pairwise fun a b => b.stop ≤ a.start)
    (hle : ∀ d ∈ l, d.stop ≤ eoa) :
    l.foldl shrinkBy eoa ≤ eoa ∧ Set.Ico (l.foldl shrinkBy eoa) eoa ⊆ covered l ∧
      (l.foldl shrinkBy eoa < eoa → ∃ d ∈ l, d.start = l.foldl shrinkBy eoa) ∧
      ∀ d ∈ l, d.stop < l.foldl shrinkBy eoa ∨ l.foldl shrinkBy eoa ≤ d.start := by
  induction l generalizing eoa with
  | nil => exact ⟨le_rfl, by simp, by simp, by simp⟩
  | cons d l ih =>
    obtain ⟨hd, hl⟩ := pairwise_cons.mp hdesc
    have hpos := d.start_lt_stop
    rw [foldl_cons, shrinkBy]
    by_cases hend : d.stop = eoa
    · rw [if_pos hend]
      obtain ⟨hle', hsub, hlow, hmax⟩ := ih hl hd
      refine ⟨by omega, ?_, ?_, ?_⟩
      · intro x hx
        rw [covered_cons]
        by_cases hxd : x < d.start
        · exact .inr (hsub ⟨hx.1, hxd⟩)
        · exact .inl ⟨not_lt.mp hxd, hend ▸ hx.2⟩
      · intro _
        rcases Nat.lt_or_eq_of_le hle' with hlt | heq
        · obtain ⟨low, hmem, hstart⟩ := hlow hlt
          exact ⟨low, mem_cons_of_mem _ hmem, hstart⟩
        · exact ⟨d, mem_cons_self, heq.symm⟩
      · intro e he
        rcases mem_cons.mp he with rfl | he
        · exact .inr hle'
        · exact hmax e he
    · -- everything after the gap lies below it
      have hlt : d.stop < eoa := lt_of_le_of_ne (hle d mem_cons_self) hend
      have hbelow : ∀ e ∈ l, e.stop < eoa := fun e he => by
        have := hd e he
        omega
      rw [if_neg hend, foldl_shrinkBy_of_lt hbelow]
      refine ⟨le_rfl, by simp, by simp, ?_⟩
      intro e he
      rcases mem_cons.mp he with rfl | he
      · exact .inl hlt
      · exact .inl (hbelow e he)

/-- The dropped extents in descending order. -/
lemma descending_dropped (hd : DisjointExtents dropped) :
    (dropped.mergeSort fun a b => decide (b.start ≤ a.start)).Pairwise
      fun a b => b.stop ≤ a.start := by
  have hsort : (dropped.mergeSort fun a b => decide (b.start ≤ a.start)).Pairwise
      fun a b => decide (b.start ≤ a.start) = true :=
    pairwise_mergeSort (by intro a b c; simpa using fun h h' => le_trans h' h)
      (by intro a b; simpa using le_total _ _) dropped
  have hdisj := (mergeSort_perm dropped fun a b => decide (b.start ≤ a.start)).symm.pairwise
    hd fun {_ _} h => h.symm
  refine (hsort.and hdisj).imp ?_
  rintro a b ⟨hle, hapart⟩
  have ha := a.start_lt_stop
  have := of_decide_eq_true hle
  have := Extent.disjoint_iff.mp hapart
  omega

/-! ## The free run at the end -/

/-- Where the region that ends the list reaches `eof`, it is the one that is taken. -/
lemma Canonical.getLast_of_stop {l : FreeList} (hl : l.Canonical) (heof : ∀ x ∈ l.bytes, x < eof)
    {r : Extent} (hr : r ∈ l.regions) (hstop : r.stop = eof) :
    l.regions.getLast? = some r := by
  cases hlast : l.regions.getLast? with
  | none =>
    rw [getLast?_eq_none_iff.mp hlast] at hr
    exact absurd hr not_mem_nil
  | some last =>
    have hmem := mem_of_getLast? hlast
    have hlpos := last.start_lt_stop
    by_contra hne
    have hbelow := heof (last.stop - 1) ⟨last, hmem, by omega, by omega⟩
    -- a region below the last one would end below it
    obtain ⟨pre, hpre⟩ := getLast?_eq_some_iff.mp hlast
    rw [hpre, mem_append, mem_singleton] at hr
    have hsep := hl.separated
    rw [hpre] at hsep
    rcases hr with hr | rfl
    · have := (separated_append.mp hsep).2.2 r hr last (by simp)
      omega
    · exact hne rfl

lemma takeTrailing_some {l l' : FreeList} {start : ℕ}
    (h : l.takeTrailing eof = .ok (some start, l')) :
    ∃ last ∈ l.regions, last.stop = eof ∧ last.start = start := by
  unfold takeTrailing at h
  cases hlast : l.regions.getLast? with
  | none =>
    rw [hlast] at h
    cases h
  | some last =>
    rw [hlast] at h
    dsimp only at h
    split_ifs at h with hstop
    · obtain ⟨total, -, h⟩ := bind_eq_ok.mp h
      obtain ⟨hstart, -⟩ := Prod.mk.inj (Except.ok.inj h)
      exact ⟨last, mem_of_getLast? hlast, hstop, Option.some.inj hstart⟩
    · cases h

/-- The end `eof` is lowered to `e` over free bytes as far as they go, and the list keeps what lies
below `e`. -/
structure Shrunk (all : Set ℕ) (eof : ℕ) (l : FreeList) (e : ℕ) (l' : FreeList) : Prop where
  le : e ≤ eof
  free : Set.Ico e eof ⊆ all
  maximal : ∀ x, x + 1 = e → x ∉ all
  canonical : l'.Canonical
  bytes : l'.bytes = l.bytes ∩ Set.Iio e

/-- Neither step of the shrink can stop short: dropped bytes and tracked bytes do not touch. -/
lemma shrunk_of_apart {l : FreeList} (hl : l.Canonical) (heof : ∀ x ∈ l.bytes, x < eof)
    (hd : DisjointExtents dropped)
    (hbelow : ∀ d ∈ dropped, d.stop ≤ eof) (hapart : ∀ d ∈ dropped, Disjoint l.bytes d.bytes)
    (htouch : ∀ d ∈ dropped, ¬ Touches l.bytes d)
    (heoa : (dropped.mergeSort fun a b => decide (b.start ≤ a.start)).foldl shrinkBy eof = eoa) :
    ∃ start l', l.takeTrailing eoa = .ok (start, l') ∧
      Shrunk (l.bytes ∪ covered dropped) eof l (start.getD eoa) l' := by
  have hperm := mergeSort_perm dropped fun a b => decide (b.start ≤ a.start)
  have hsort : ∀ d ∈ dropped.mergeSort fun a b => decide (b.start ≤ a.start), d.stop ≤ eof :=
    fun d hd => hbelow d (hperm.mem_iff.mp hd)
  obtain ⟨hle, hsub, hlow, hmax⟩ := foldl_shrinkBy_spec (descending_dropped hd) hsort
  rw [heoa] at hle hsub hlow hmax
  rw [covered_perm hperm] at hsub
  -- the byte before the lowered end is not dropped
  have hnot : ∀ x, x + 1 = eoa → x ∉ covered dropped := by
    rintro x hx ⟨d, hd, hxd⟩
    have := hmax d (hperm.mem_iff.mpr hd)
    omega
  obtain ⟨start, l', htake, hcan, hsome, hnone⟩ := takeTrailing_spec hl eoa
  refine ⟨start, l', htake, ?_⟩
  rcases Nat.lt_or_eq_of_le hle with hlt | rfl
  · -- the end was lowered over dropped extents, so that no region ends there
    obtain ⟨low, hmem, hlowStart⟩ := hlow hlt
    have hmem' : low ∈ dropped := hperm.mem_iff.mp hmem
    have hnext : ∀ x, x + 1 = eoa → x ∉ l.bytes := by
      intro x hx hxl
      exact htouch low hmem' ⟨x, hxl, .inl (by omega)⟩
    cases start with
    | some s =>
      obtain ⟨hs, hreg, -⟩ := hsome s rfl
      exact absurd (hreg (show eoa - 1 ∈ _ from ⟨by omega, by omega⟩)) (hnext _ (by omega))
    | none =>
      obtain ⟨rfl, -⟩ := hnone rfl
      refine ⟨hle, hsub.trans Set.subset_union_right, ?_, hcan, ?_⟩
      · rintro x hx (hxl | hxd)
        · exact hnext x hx hxl
        · exact hnot x hx hxd
      · -- above the new end everything was dropped
        refine (Set.inter_eq_left.mpr ?_).symm
        intro x hx
        by_contra hge
        obtain ⟨d, hd', hxd⟩ := hsub ⟨not_lt.mp hge, heof x hx⟩
        exact Set.disjoint_left.mp (hapart d hd') hx hxd
  · cases start with
    | some s =>
      -- the trailing region is the whole run
      obtain ⟨hs, hreg, hbytes⟩ := hsome s rfl
      obtain ⟨last, hlast, hstop, hstart⟩ := takeTrailing_some htake
      refine ⟨hs.le, hreg.trans Set.subset_union_left, ?_, hcan, ?_⟩
      · rintro x hx (⟨r, hr, hxr⟩ | ⟨d, hd', hxd⟩)
        · have hne : r ≠ last := by
            rintro rfl
            simp only [Option.getD_some] at hx
            omega
          have := hl.separated.apart hr hlast hne
          simp only [Option.getD_some] at hx
          omega
        · have hin : s ∈ l.bytes := hreg ⟨le_rfl, hs⟩
          have hends : d.stop = s := by
            have hdisj := Extent.disjoint_iff.mp
              ((hapart d hd').mono_left (bytes_subset_covered hlast))
            simp only [Option.getD_some] at hx
            omega
          exact htouch d hd' ⟨s, hin, .inr hends.symm⟩
      · rw [hbytes]
        ext x
        simp only [Set.mem_sdiff, Set.mem_inter_iff, Set.mem_Ico, Set.mem_Iio, Option.getD_some]
        constructor
        · rintro ⟨hx, hout⟩
          have := heof x hx
          exact ⟨hx, by omega⟩
        · rintro ⟨hx, hlt⟩
          exact ⟨hx, by omega⟩
    | none =>
      obtain ⟨rfl, hlast⟩ := hnone rfl
      refine ⟨le_rfl, by simp, ?_, hcan, (Set.inter_eq_left.mpr heof).symm⟩
      rintro x hx (⟨r, hr, hxr⟩ | hxd)
      · have hstop : r.stop = eoa := by
          have := heof (r.stop - 1) ⟨r, hr, by omega, by omega⟩
          simp only [Option.getD_none] at hx
          omega
        exact hlast r (hl.getLast_of_stop heof hr hstop) hstop
      · exact hnot x hx hxd

end FreeList

namespace SessionSpace

open FreeList

/-- A flat release lowers the end of allocation to the lowest address above which every byte up to
`eof` is tracked or returned. Below it the list tracks what it tracked before and the returns that
the admission rule accepts. -/
theorem releaseFreed_maximal (space : FlatSpace) (hl : space.free.Canonical) (eof : ℕ)
    (heof : ∀ x ∈ space.free.bytes, x < eof) (extents : List Extent)
    (hbelow : ∀ e ∈ extents, e.stop ≤ eof)
    (hd : extents.Pairwise fun a b => Disjoint a.bytes b.bytes)
    (hfree : ∀ e ∈ extents, Disjoint space.free.bytes e.bytes) :
    ∃ eoa free, (flat space).releaseFreed eof extents =
        .ok (if eoa = eof then none else some eoa, flat { space with free := free }) ∧
      IsLeast {e | e ≤ eof ∧ Set.Ico e eof ⊆ space.free.bytes ∪ covered extents} eoa ∧
      free.Canonical ∧ (∀ r ∈ free.regions, r.stop < eoa) ∧
      free.bytes = {x | x < eoa ∧ (x ∈ space.free.bytes ∨
        ∃ e ∈ extents, space.free.RunSeeded space.threshold extents e ∧ x ∈ e.bytes)} := by
  obtain ⟨dropped, l, taken, hbatch, hsplit, hholds, hsat⟩ :=
    releaseBatch_concluded hl space.threshold hd hfree
  obtain ⟨hcan, hbytes⟩ := id hholds
  have hnodup := nodup_of_disjoint (pairwise_entries hd)
  have hmem : ∀ d ∈ dropped, d ∈ extents ∧ (d, ()) ∉ taken := by
    intro d hd'
    have hin : (d, ()) ∈ entries dropped := mem_entries.mpr hd'
    refine ⟨mem_entries.mp (hsplit.mem_iff.mpr (mem_append_right _ hin)), ?_⟩
    intro htaken
    exact (nodup_append.mp (hsplit.nodup_iff.mp hnodup)).2.2 _ htaken _ hin rfl
  have hsub : ∀ entry ∈ taken, entry.1 ∈ extents := fun entry hentry =>
    mem_entries.mp (hsplit.mem_iff.mpr (mem_append_left _ hentry))
  -- the returns of the batch are the admitted and the dropped bytes
  have hall : l.bytes ∪ covered dropped = space.free.bytes ∪ covered extents := by
    rw [hbytes, ← entryBytes_entries extents, Set.union_assoc]
    congr 1
    ext x
    simp only [entryBytes, Set.mem_union, Set.mem_ofPred_eq, hsplit.mem_iff, mem_append,
      or_and_right, exists_or]
    refine or_congr_right ?_
    rw [← entryBytes_entries dropped]
    rfl
  have hdropped : DisjointExtents dropped := by
    have hpair : DisjointReturns (taken ++ entries dropped) :=
      (hsplit.pairwise_iff fun {_ _} h => Disjoint.symm h).mp (pairwise_entries hd)
    have hents := (pairwise_append.mp hpair).2.1
    rwa [entries, pairwise_map] at hents
  have hapart : ∀ d ∈ dropped, Disjoint l.bytes d.bytes := fun d hd' =>
    hholds.disjoint (pairwise_entries hd) (forall_entries hfree)
      (fun x hx => mem_entries.mpr (hsub x hx)) (mem_entries.mpr (hmem d hd').1) (hmem d hd').2
  have htouch : ∀ d ∈ dropped, ¬ Touches l.bytes d := by
    intro d hd' htouch
    rw [hbytes] at htouch
    exact (hmem d hd').2 (hsat.closed _ (mem_entries.mpr (hmem d hd').1) (.inr htouch))
  have hbelow' : ∀ x ∈ l.bytes, x < eof := by
    rw [hbytes]
    rintro x (hx | ⟨entry, hentry, hx⟩)
    · exact heof x hx
    · exact lt_of_lt_of_le hx.2 (hbelow _ (hsub entry hentry))
  obtain ⟨start, free, htake, hshrunk⟩ := shrunk_of_apart hcan hbelow' hdropped
    (fun d hd' => hbelow d (hmem d hd').1) hapart htouch rfl
  obtain ⟨eoa, heoa⟩ : ∃ eoa, eoa = start.getD
    ((dropped.mergeSort fun a b => decide (b.start ≤ a.start)).foldl shrinkBy eof) := ⟨_, rfl⟩
  rw [← heoa, hall] at hshrunk
  refine ⟨eoa, free, ?_, ⟨⟨hshrunk.le, hshrunk.free⟩, ?_⟩, hshrunk.canonical, ?_, ?_⟩
  · simp only [releaseFreed, releaseAll, hbatch, ok_bind, htake, ← heoa]
    rcases Nat.lt_or_eq_of_le hshrunk.le with hlt | heq
    · rw [if_pos hlt, if_neg hlt.ne]
    · rw [if_neg (by omega), if_pos heq]
  · rintro e ⟨-, hfreeRun⟩
    by_contra hlt
    exact hshrunk.maximal (eoa - 1) (by omega)
      (hfreeRun ⟨by omega, by have := hshrunk.le; omega⟩)
  · intro r hr
    have hpos := r.start_lt_stop
    have hin : r.stop - 1 ∈ free.bytes := ⟨r, hr, by omega, by omega⟩
    rw [hshrunk.bytes] at hin
    have hlt : r.stop - 1 < eoa := hin.2
    by_contra hge
    refine hshrunk.maximal (r.stop - 1) (by omega) ?_
    rw [← hall]
    exact .inl hin.1
  · rw [hshrunk.bytes, hbytes]
    ext x
    simp only [entryBytes, Set.mem_inter_iff, Set.mem_union, Set.mem_Iio, Set.mem_ofPred_eq]
    rw [and_comm]
    refine and_congr_right fun _ => or_congr_right ?_
    constructor
    · rintro ⟨entry, hentry, hx⟩
      have hin := hsub entry hentry
      exact ⟨entry.1, hin, (saturated_iff_runSeeded hd hfree hsat hin).mp hentry, hx⟩
    · rintro ⟨e, he, hseeded, hx⟩
      exact ⟨(e, ()), (saturated_iff_runSeeded hd hfree hsat he).mpr hseeded, hx⟩

/-- A file of 120 bytes with a free run `[90, 120)`: the tracked `[100, 110)`, and the returns
before and after it, which are shorter than the threshold. -/
theorem releaseFreed_maximal_run :
    ∃ eoa free, (flat ⟨⟨[⟨100, 10, by decide, by decide⟩], 10⟩, 64⟩).releaseFreed 120
        [⟨110, 10, by decide, by decide⟩, ⟨90, 10, by decide, by decide⟩] =
        .ok (if eoa = 120 then none else some eoa, flat ⟨free, 64⟩) ∧
      IsLeast {e | e ≤ 120 ∧ Set.Ico e 120 ⊆ Set.Ico 90 120} eoa := by
  obtain ⟨eoa, free, hrelease, hleast, -⟩ := releaseFreed_maximal
    ⟨⟨[⟨100, 10, by decide, by decide⟩], 10⟩, 64⟩ ⟨separated_singleton, rfl⟩ 120
    (by
      rintro x ⟨r, hr, hx⟩
      rw [mem_singleton.mp hr] at hx
      exact hx.2.trans (by decide))
    [⟨110, 10, by decide, by decide⟩, ⟨90, 10, by decide, by decide⟩]
    (by simp [Extent.stop]) (by simp [Extent.disjoint_iff, Extent.stop])
    (by simp [FreeList.bytes, Extent.disjoint_iff, Extent.stop])
  refine ⟨eoa, free, hrelease, ?_⟩
  have hbytes : FreeList.bytes ⟨[⟨100, 10, by decide, by decide⟩], 10⟩ ∪
      covered [⟨110, 10, by decide, by decide⟩, ⟨90, 10, by decide, by decide⟩] =
      Set.Ico 90 120 := by
    ext x
    simp only [FreeList.bytes, covered_cons, covered_nil, Set.union_empty, Set.mem_union,
      Extent.mem_bytes, Extent.stop, Set.mem_Ico]
    omega
  rwa [hbytes] at hleast

end SessionSpace

end Hdf5Pure.Space
