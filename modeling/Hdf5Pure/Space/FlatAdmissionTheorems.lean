import Hdf5Pure.Space.Adjacency
import Hdf5Pure.Space.AdmissionTheorems
import Hdf5Pure.Space.TrackedSpaceTheorems

/-!
# The flat sweep decides as the admission rule does

The sweep admits a run of touching extents as a whole when it holds a seed. That is the least set
closed under the rule of `TrackedSpace`, which the default batch computes by repeated passes.
-/

namespace Hdf5Pure.Space

open List hiding Disjoint

open Checked IntervalLists Saturation TrackedSpace

/-! ## Disjoint returns -/

section Returns

variable {C : Type} {returns : List (Extent × C)}

lemma nodup_of_disjoint (hd : DisjointReturns returns) : returns.Nodup := by
  refine hd.imp ?_
  rintro a b hdisj rfl
  exact Set.disjoint_left.mp hdisj ⟨le_rfl, a.1.start_lt_stop⟩ ⟨le_rfl, a.1.start_lt_stop⟩

def entryBytes (A : Set (Extent × C)) : Set ℕ := {x | ∃ entry ∈ A, x ∈ entry.1.bytes}

lemma entryBytes_mono {A B : Set (Extent × C)} (h : A ⊆ B) : entryBytes A ⊆ entryBytes B := by
  rintro x ⟨entry, hentry, hx⟩
  exact ⟨entry, h hentry, hx⟩

lemma entryBytes_cons (entry : Extent × C) (taken : List (Extent × C)) :
    entryBytes {x | x ∈ entry :: taken} = entry.1.bytes ∪ entryBytes {x | x ∈ taken} := by
  ext x
  simp only [entryBytes, Set.mem_union, Set.mem_ofPred_eq, mem_cons, exists_eq_or_imp]

lemma covered_map_fst (taken : List (Extent × C)) :
    covered (taken.map Prod.fst) = entryBytes {x | x ∈ taken} := by
  ext x
  simp only [mem_covered, mem_map, entryBytes, Set.mem_ofPred_eq, Extent.mem_bytes]
  constructor
  · rintro ⟨e, ⟨entry, hentry, rfl⟩, hx⟩
    exact ⟨entry, hentry, hx⟩
  · rintro ⟨entry, hentry, hx⟩
    exact ⟨entry.1, ⟨entry, hentry, rfl⟩, hx⟩

end Returns

/-! ## Touching -/

def Touches (bytes : Set ℕ) (e : Extent) : Prop := ∃ x ∈ bytes, x + 1 = e.start ∨ x = e.stop

variable {e : Extent} {taken : List Extent} {a : FlatAdmission}

lemma touches_iff {bytes : Set ℕ} :
    FreeBefore bytes 1 e ∨ FreeAfter bytes 1 e ↔ Touches bytes e := by
  constructor
  · rintro (⟨hle, hsub⟩ | hsub)
    · exact ⟨e.start - 1, hsub ⟨le_rfl, by omega⟩, by omega⟩
    · exact ⟨e.stop, hsub ⟨le_rfl, by omega⟩, .inr rfl⟩
  · rintro ⟨x, hx, hbefore | hafter⟩
    · refine .inl ⟨by omega, ?_⟩
      rintro y ⟨hy, hy'⟩
      rwa [show y = x by omega]
    · refine .inr ?_
      rintro y ⟨hy, hy'⟩
      rwa [show y = x by omega]

lemma Touches.mono {s t : Set ℕ} (h : Touches s e) (hst : s ⊆ t) : Touches t e := by
  obtain ⟨x, hx, hnext⟩ := h
  exact ⟨x, hst hx, hnext⟩

lemma adjoins_of_touches {a : Extent} (hd : Disjoint a.bytes e.bytes) (h : Touches a.bytes e) :
    e.adjoins a = true := by
  obtain ⟨x, hx, hnext⟩ := h
  have hapart := Extent.disjoint_iff.mp hd
  have hpos := e.start_lt_stop
  rw [Extent.mem_bytes] at hx
  rw [Extent.adjoins, Bool.or_eq_true, beq_iff_eq, beq_iff_eq]
  omega

lemma touches_of_adjoins {a : Extent} (h : e.adjoins a = true) : Touches a.bytes e := by
  have hpos := a.start_lt_stop
  rw [Extent.adjoins, Bool.or_eq_true, beq_iff_eq, beq_iff_eq] at h
  rcases h with hafter | hbefore
  · exact ⟨a.start, ⟨le_rfl, hpos⟩, .inr hafter.symm⟩
  · exact ⟨a.stop - 1, ⟨by omega, by omega⟩, .inl (by omega)⟩

/-! ## The rule of the flat list -/

namespace FreeList

/-- Where an extent merges once the entries `A` have joined the list. -/
def near (l : FreeList) (A : Set (Extent × Unit)) (e : Extent) : Prop :=
  Touches (l.bytes ∪ entryBytes A) e

def Holds (l l' : FreeList) (taken : List (Extent × Unit)) : Prop :=
  l'.Canonical ∧ l'.bytes = l.bytes ∪ entryBytes {x | x ∈ taken}

variable {l : FreeList} {returns : List (Extent × Unit)}

lemma near_mono {A B : Set (Extent × Unit)} (h : A ⊆ B) (hnear : l.near A e) : l.near B e :=
  hnear.mono (Set.union_subset_union_right _ (entryBytes_mono h))

/-- A return that is not admitted is disjoint from the list. -/
lemma Holds.disjoint {l' : FreeList} {taken : List (Extent × Unit)} (h : l.Holds l' taken)
    (hd : DisjointReturns returns)
    (hfree : ∀ r ∈ returns, Disjoint l.bytes r.1.bytes) (hsub : taken ⊆ returns)
    {entry : Extent × Unit} (hmem : entry ∈ returns) (hnot : entry ∉ taken) :
    Disjoint l'.bytes entry.1.bytes := by
  rw [h.2, Set.disjoint_union_left]
  refine ⟨hfree entry hmem, ?_⟩
  rw [Set.disjoint_left]
  rintro x ⟨other, hother, hx⟩ hx'
  obtain rfl := eq_of_mem_bytes hd (hsub hother) hmem hx hx'
  exact hnot hother

lemma Holds.unique {l₁ l₂ : FreeList} {taken₁ taken₂ : List (Extent × Unit)}
    (h₁ : l.Holds l₁ taken₁) (h₂ : l.Holds l₂ taken₂)
    (htaken : {x | x ∈ taken₂} = {x | x ∈ taken₁}) : l₂ = l₁ :=
  h₂.1.eq_of_bytes_eq h₁.1 (by rw [h₁.2, h₂.2, htaken])

lemma follows (l : FreeList) (hd : DisjointReturns returns)
    (hfree : ∀ r ∈ returns, Disjoint l.bytes r.1.bytes) : Follows returns l.near l.Holds where
  mono := near_mono
  merges := by
    intro l' taken entry hholds hsub hmem hnot
    show l'.adjoins entry.1 = true ↔ _
    rw [adjoins_iff hholds.1 (hholds.disjoint hd hfree hsub hmem hnot), touches_iff, hholds.2]
    rfl
  track := by
    intro l' taken entry hholds hsub hmem hnot
    obtain ⟨m, hfreeEq, hcan, hbytes⟩ :=
      free_spec hholds.1 (hholds.disjoint hd hfree hsub hmem hnot)
    refine ⟨m, hfreeEq, hcan, ?_⟩
    rw [hbytes, hholds.2, entryBytes_cons]
    ac_rfl

/-! ## What the sweep admits is forced -/

/-- Between tracked space and admitted returns, a run that holds a seed is admitted byte by byte. -/
lemma bytes_forced {threshold : ℕ} (hd : DisjointReturns returns)
    (hfree : ∀ r ∈ returns, Disjoint l.bytes r.1.bytes) {B : Set (Extent × Unit)}
    (hB : Closed {x | x ∈ returns} (Eligible threshold l.near) B) {s t x : ℕ}
    (hrun : ∀ y, s ≤ y → y < t → y ∈ l.bytes ∪ entryBytes {r | r ∈ returns}) (hx : s ≤ x ∧ x < t)
    (hseed : x ∈ l.bytes ∪ entryBytes (B ∩ {r | r ∈ returns})) :
    ∀ y, s ≤ y → y < t → y ∈ l.bytes ∪ entryBytes (B ∩ {r | r ∈ returns}) := by
  -- a byte of the run next to an admitted one is admitted
  have hstep : ∀ y z, (y + 1 = z ∨ z + 1 = y) → z ∈ l.bytes ∪ entryBytes {r | r ∈ returns} →
      y ∈ l.bytes ∪ entryBytes (B ∩ {r | r ∈ returns}) →
      z ∈ l.bytes ∪ entryBytes (B ∩ {r | r ∈ returns}) := by
    rintro y z hyz (hz | ⟨entry, hentry, hz⟩) hy
    · exact .inl hz
    · refine .inr ⟨entry, ⟨?_, hentry⟩, hz⟩
      by_cases hin : y ∈ entry.1.bytes
      · rcases hy with hy | ⟨other, ⟨hother, hmem⟩, hy⟩
        · exact absurd hin (Set.disjoint_left.mp (hfree entry hentry) hy)
        · rwa [eq_of_mem_bytes hd hentry hmem hin hy]
      -- the byte is the first or the last one of its return
      have htouch : Touches (l.bytes ∪ entryBytes B) entry.1 := by
        refine ⟨y, hy.imp_right fun h => entryBytes_mono Set.inter_subset_left h, ?_⟩
        rw [Extent.mem_bytes] at hz hin
        omega
      exact hB entry hentry (.inr htouch)
  intro y hsy hyt
  rcases le_total x y with hle | hle
  · induction y, hle using Nat.le_induction with
    | base => exact hseed
    | succ y hxy ih => exact hstep y (y + 1) (.inl rfl) (hrun _ hsy hyt) (ih (by omega) (by omega))
  · induction hle using Nat.decreasingInduction with
    | self => exact hseed
    | of_succ y hlt ih => exact hstep (y + 1) y (.inr rfl) (hrun _ hsy hyt) (ih (by omega) (by omega))

/-! ## Runs of the sweep -/

open FlatAdmission

variable {l' : FreeList} {threshold : ℕ} {extents dropped : List Extent}

def entries (extents : List Extent) : List (Extent × Unit) := extents.map (·, ())

@[simp] lemma mem_entries {c : Unit} : (e, c) ∈ entries extents ↔ e ∈ extents := by
  simp [entries]

lemma entryBytes_entries (taken : List Extent) :
    entryBytes {x | x ∈ entries taken} = covered taken := by
  rw [← covered_map_fst, entries, map_map]
  simp [Function.comp_def]

lemma pairwise_entries (hd : DisjointExtents extents) : DisjointReturns (entries extents) :=
  pairwise_map.mpr hd

lemma forall_entries (hfree : ∀ e ∈ extents, Disjoint l.bytes e.bytes) :
    ∀ r ∈ entries extents, Disjoint l.bytes r.1.bytes :=
  fun r hr => hfree r.1 (mem_entries.mp hr)

variable {items : List (Extent × Bool)}

lemma Swept.closed (h : Swept l threshold extents dropped l' items a taken)
    (hjudged : Judged threshold items a.finishRun) :
    Closed {x | x ∈ entries extents} (Eligible threshold l.near) {x | x ∈ entries taken} := by
  rintro ⟨e, c⟩ he heligible
  have hsplit := h.returned.symm.trans h.inv.split
  rcases mem_append.mp (hsplit.mem_iff.mp (mem_entries.mp he)) with htaken | hdropped
  · exact mem_entries.mpr htaken
  exfalso
  rcases heligible with hlong | htouch
  · exact absurd hlong (not_le.mpr (h.inv.short e hdropped))
  rw [near, entryBytes_entries, ← h.bytes, h.regions] at htouch
  obtain ⟨x, ⟨r, hr, hx⟩, hnext⟩ := htouch
  have hapart := hjudged.apart e hdropped r hr
  have hpos : e.start < e.stop := e.start_lt_stop
  simp only at hnext
  omega

lemma Swept.forced (h : Swept l threshold extents dropped l' items a taken)
    (hjudged : Judged threshold items a.finishRun) (hd : DisjointExtents extents)
    (hfree : ∀ e ∈ extents, Disjoint l.bytes e.bytes) :
    Forced {x | x ∈ entries extents} (Eligible threshold l.near) {x | x ∈ entries taken} := by
  rintro B hB ⟨e, c⟩ he
  have htaken : e ∈ taken := mem_entries.mp he
  have hsub : ∀ r ∈ taken, r ∈ extents := fun r hr =>
    (h.returned.symm.trans h.inv.split).mem_iff.mpr (mem_append_left _ hr)
  have hstart : e.start ∈ e.bytes := ⟨le_rfl, e.start_lt_stop⟩
  obtain ⟨r, hr, hle, hlt⟩ : e.start ∈ covered a.finishRun.admitted := by
    rw [← h.regions, h.bytes]
    exact .inr (bytes_subset_covered htaken hstart)
  have hrun : ∀ y, r.start ≤ y → y < r.stop →
      y ∈ l.bytes ∪ entryBytes {r | r ∈ entries extents} := by
    intro y hy hy'
    have hin : y ∈ l'.bytes := by
      rw [h.regions]
      exact ⟨r, hr, hy, hy'⟩
    rw [h.bytes] at hin
    rw [entryBytes_entries]
    refine hin.imp_right ?_
    rintro ⟨d, hd, hyd⟩
    exact ⟨d, hsub d hd, hyd⟩
  obtain ⟨⟨seed, returned⟩, hitem, hseed, hin⟩ := hjudged.admitted r hr
  have hseedStart : seed.start ∈ seed.bytes := ⟨le_rfl, seed.start_lt_stop⟩
  have hseeded : seed.start ∈ l.bytes ∪ entryBytes (B ∩ {r | r ∈ entries extents}) := by
    cases returned with
    | false =>
      have hreg : seed ∈ l.regions := h.tracked.mem_iff.mp (mem_filterMap.mpr ⟨_, hitem, rfl⟩)
      exact .inl (bytes_subset_covered hreg hseedStart)
    | true =>
      have hmem : (seed, ()) ∈ entries extents :=
        mem_entries.mpr (h.returned.mem_iff.mp (mem_filterMap.mpr ⟨_, hitem, rfl⟩))
      exact .inr ⟨(seed, ()), ⟨hB _ hmem (.inl (hseed rfl)), hmem⟩, hseedStart⟩
  have hall := bytes_forced (pairwise_entries hd) (forall_entries hfree) hB hrun (hin hseedStart)
    hseeded e.start hle hlt
  have hmem : (e, c) ∈ entries extents := mem_entries.mpr (hsub e htaken)
  rcases hall with htracked | ⟨other, ⟨hother, hret⟩, hx⟩
  · exact absurd hstart (Set.disjoint_left.mp (hfree e (hsub e htaken)) htracked)
  · rwa [eq_of_mem_bytes (pairwise_entries hd) hmem hret hstart hx]

/-- The flat batch admits the least closed set. -/
lemma releaseBatch_concluded (hl : l.Canonical) (threshold : ℕ) (hd : DisjointExtents extents)
    (hfree : ∀ e ∈ extents, Disjoint l.bytes e.bytes) :
    ∃ dropped l' taken, l.releaseBatch threshold extents = .ok (dropped, l') ∧
      Concluded threshold (entries extents) l.near l.Holds l' taken (entries dropped) := by
  have hstart : l.Holds l [] := ⟨hl, by simp [entryBytes]⟩
  match extents with
  | [] => exact ⟨[], l, [], rfl, concluded_nil hstart⟩
  | [e] =>
    have hfollows : Follows [(e, ())] l.near l.Holds :=
      l.follows (pairwise_entries hd) (forall_entries hfree)
    obtain ⟨r, l', taken, hrelease, hconcluded⟩ := release_single hfollows hstart threshold
    refine ⟨if r = .drop then [e] else [], l', taken, ?_, ?_⟩
    · simp only [releaseBatch, release, hrelease, ok_bind]
    · rw [apply_ite entries]
      exact hconcluded
  | a :: b :: rest =>
    obtain ⟨dropped, l', items, adm, taken, hbatch, hswept, hjudged⟩ :=
      releaseBatch_swept hl threshold hd hfree
    refine ⟨dropped, l', entries taken, hbatch, ?_, ⟨hswept.canonical, ?_⟩, hswept.closed hjudged,
      hswept.forced hjudged hd hfree⟩
    · have hsplit := (hswept.returned.symm.trans hswept.inv.split).map (·, ())
      rwa [hswept.dropped, map_append] at hsplit
    · rw [hswept.bytes, entryBytes_entries]

/-! ## Runs of touching extents -/

/-- The second extent belongs to the maximal run of touching tracked and returned extents around
the first. -/
def InRun (l : FreeList) (extents : List Extent) : Extent → Extent → Prop :=
  Relation.ReflTransGen fun a b => (b ∈ l.regions ∨ b ∈ extents) ∧ a.adjoins b = true

/-- The run around `e` holds tracked space or a return of at least the threshold. -/
def RunSeeded (l : FreeList) (threshold : ℕ) (extents : List Extent) (e : Extent) : Prop :=
  ∃ x, l.InRun extents e x ∧ (x ∈ l.regions ∨ (x ∈ extents ∧ threshold ≤ x.len))

/-- The least closed set consists of the returns whose run has a seed. -/
lemma saturated_iff_runSeeded (hd : DisjointExtents extents)
    (hfree : ∀ e ∈ extents, Disjoint l.bytes e.bytes) {A : Set (Extent × Unit)}
    (hA : Saturated {x | x ∈ entries extents} (Eligible threshold l.near) A) (he : e ∈ extents) :
    (e, ()) ∈ A ↔ l.RunSeeded threshold extents e := by
  constructor
  · -- the returns with a seed in their run are closed under the rule
    have hclosed : Closed {x | x ∈ entries extents} (Eligible threshold l.near)
        {x | x.1 ∈ extents ∧ l.RunSeeded threshold extents x.1} := by
      rintro ⟨d, c⟩ hmem heligible
      have hmem' : d ∈ extents := mem_entries.mp hmem
      refine ⟨hmem', ?_⟩
      rcases heligible with hlong | ⟨x, hx, hnext⟩
      · exact ⟨d, .refl, .inr ⟨hmem', hlong⟩⟩
      rcases hx with ⟨r, hr, hxr⟩ | ⟨⟨b, c'⟩, ⟨hb, hseeded⟩, hxb⟩
      · have hdisj : Disjoint r.bytes d.bytes :=
          (hfree d hmem').mono_left (bytes_subset_covered hr)
        have hadj := adjoins_of_touches hdisj ⟨x, hxr, hnext⟩
        exact ⟨r, .single ⟨.inl hr, hadj⟩, .inl hr⟩
      · by_cases hbd : b = d
        · exact hbd ▸ hseeded
        · have hb' : (b, c') ∈ entries extents := mem_entries.mpr hb
          have hdisj : Disjoint b.bytes d.bytes :=
            (pairwise_entries hd).forall hb' hmem fun h => hbd (Prod.mk.inj h).1
          have hadj := adjoins_of_touches hdisj ⟨x, hxb, hnext⟩
          obtain ⟨y, hrun, hy⟩ := hseeded
          exact ⟨y, .head ⟨.inr hb, hadj⟩ hrun, hy⟩
    intro hin
    exact (hA.forced _ hclosed hin).2
  · rintro ⟨x, hrun, hx⟩
    -- from the seed back along the run
    induction hrun using Relation.ReflTransGen.head_induction_on with
    | refl =>
      rcases hx with htracked | ⟨-, hlong⟩
      · have hstart : x.start ∈ x.bytes := ⟨le_rfl, x.start_lt_stop⟩
        exact absurd hstart
          (Set.disjoint_left.mp (hfree x he) (bytes_subset_covered htracked hstart))
      · exact hA.closed _ (mem_entries.mpr he) (.inl hlong)
    | @head d b hstep hrest ih =>
      obtain ⟨hb, hadj⟩ := hstep
      have htouch := touches_of_adjoins hadj
      refine hA.closed _ (mem_entries.mpr he) (.inr (htouch.mono ?_))
      rcases hb with hb | hb
      · exact (bytes_subset_covered hb).trans Set.subset_union_left
      · intro y hy
        exact .inr ⟨(b, ()), ih hb, hy⟩

/-! ## The sweep and the default batch -/

lemma map_fst_entries (extents : List Extent) : (entries extents).map Prod.fst = extents := by
  rw [entries, map_map]
  exact map_id _

/-- The sweep of `FreeList` and the repeated passes of the default batch track the same list and
drop the same returns, whatever the order of the batch. A return is dropped exactly if the run of
touching extents around it has no tracked space and no return of at least the threshold. -/
theorem flat_batch_eq_default (l : FreeList) (hl : l.Canonical) (threshold : ℕ)
    (extents : List Extent) (hd : extents.Pairwise fun a b => Disjoint a.bytes b.bytes)
    (hfree : ∀ e ∈ extents, Disjoint l.bytes e.bytes) :
    ∃ l' taken dropped, l'.Canonical ∧ l'.bytes = l.bytes ∪ covered taken ∧
      extents.Perm (taken ++ dropped) ∧
      (∀ e ∈ extents, e ∈ dropped ↔ ¬ l.RunSeeded threshold extents e) ∧
      ∀ extents', extents'.Perm extents →
        (∃ d, l.releaseBatch threshold extents' = .ok (d, l') ∧ d.Perm dropped) ∧
        ∃ d, releaseEach l threshold (entries extents') = .ok (entries d, l') ∧ d.Perm dropped := by
  obtain ⟨dropped, l', taken, -, hbatch⟩ := releaseBatch_concluded hl threshold hd hfree
  have hsplit := hbatch.split
  have hholds := hbatch.holds
  have hnodup := nodup_of_disjoint (pairwise_entries hd)
  have hparts : extents.Perm (taken.map Prod.fst ++ dropped) := by
    have hmap := hsplit.map Prod.fst
    rwa [map_fst_entries, map_append, map_fst_entries] at hmap
  refine ⟨l', taken.map Prod.fst, dropped, hholds.1, by rw [covered_map_fst]; exact hholds.2,
    hparts, ?_, ?_⟩
  · intro e he
    rw [← saturated_iff_runSeeded hd hfree hbatch.saturated he, ← @mem_entries e dropped ()]
    have hd' := nodup_append.mp (hsplit.nodup_iff.mp hnodup)
    constructor
    · intro hdropped htaken
      exact hd'.2.2 _ htaken _ hdropped rfl
    · intro hnot
      exact (mem_append.mp (hsplit.mem_iff.mp (mem_entries.mpr he))).resolve_left hnot
  · intro extents' hperm
    have hd₂ : DisjointExtents extents' :=
      (hperm.pairwise_iff fun {_ _} h => h.symm).mpr hd
    have hfree₂ : ∀ e ∈ extents', Disjoint l.bytes e.bytes :=
      fun e he => hfree e (hperm.mem_iff.mp he)
    have hents : (entries extents').Perm (entries extents) := hperm.map _
    constructor
    · obtain ⟨dropped₂, l₂, taken₂, hrun, hbatch₂⟩ :=
        releaseBatch_concluded hl threshold hd₂ hfree₂
      obtain ⟨rfl, hdropped⟩ := hbatch.unique hbatch₂ hents hnodup (hholds.unique hbatch₂.holds)
      have hmap := hdropped.map Prod.fst
      rw [map_fst_entries, map_fst_entries] at hmap
      exact ⟨dropped₂, hrun, hmap⟩
    · obtain ⟨dropped₂, l₂, taken₂, heach, hbatch₂⟩ :=
        releaseEach_spec (l.follows (pairwise_entries hd₂) (forall_entries hfree₂))
          (nodup_of_disjoint (pairwise_entries hd₂)) ⟨hl, by simp [entryBytes]⟩ threshold
      obtain ⟨rfl, hdropped⟩ := hbatch.unique hbatch₂ hents hnodup (hholds.unique hbatch₂.holds)
      have hmap := hdropped.map Prod.fst
      rw [map_fst_entries] at hmap
      exact ⟨dropped₂.map Prod.fst, by simpa [entries, Function.comp_def] using heach, hmap⟩

/-- Next to the tracked `[100, 110)` the return after it is admitted and then the one after that,
although both are short. The one at 20 is dropped. -/
theorem flat_batch_eq_default_chain :
    ∃ d, (⟨[⟨100, 10, by decide, by decide⟩], 10⟩ : FreeList).releaseBatch 8
        [⟨114, 2, by decide, by decide⟩, ⟨20, 3, by decide, by decide⟩,
          ⟨110, 4, by decide, by decide⟩] =
          .ok (d, ⟨[⟨100, 16, by decide, by decide⟩], 16⟩) ∧
      d.Perm [⟨20, 3, by decide, by decide⟩] := by
  obtain ⟨l', taken, dropped, -, -, -, -, hall⟩ := flat_batch_eq_default
    ⟨[⟨100, 10, by decide, by decide⟩], 10⟩ ⟨separated_singleton, rfl⟩ 8
    [⟨114, 2, by decide, by decide⟩, ⟨20, 3, by decide, by decide⟩,
      ⟨110, 4, by decide, by decide⟩]
    (by simp [Extent.disjoint_iff, Extent.stop])
    (by simp [FreeList.bytes, Extent.disjoint_iff, Extent.stop])
  obtain ⟨⟨d, hbatch, hdropped⟩, d', heach, hdropped'⟩ := hall _ (List.Perm.refl _)
  -- the passes of the default batch can be evaluated
  obtain ⟨hd, rfl⟩ := Prod.mk.inj (Except.ok.inj heach)
  have hd' : [⟨20, 3, by decide, by decide⟩] = d' :=
    (congrArg (map Prod.fst) hd).trans (map_fst_entries d')
  exact ⟨d, hbatch, hd' ▸ hdropped.trans hdropped'.symm⟩

end FreeList

end Hdf5Pure.Space
