import Hdf5Pure.Space.FreeList

/-!
# Free lists keep their representation and denote sets of bytes

One specification per operation: on a canonical list it returns without a failed assertion, and the
result is canonical with the bytes of the corresponding set operation.
-/

namespace Hdf5Pure.Space

open List hiding Disjoint

open Checked IntervalLists

def covered (l : List Extent) : Set ℕ := support Extent.start Extent.stop l

abbrev AscendingExtents (l : List Extent) : Prop := Ascending Extent.start Extent.stop l

/-- Extents in ascending order with at least one byte between any two. -/
abbrev SeparatedExtents (l : List Extent) : Prop := Separated Extent.start Extent.stop l

abbrev DisjointExtents (l : List Extent) : Prop := l.Pairwise fun a b => Disjoint a.bytes b.bytes

abbrev DisjointReturns {C : Type} (l : List (Extent × C)) : Prop :=
  l.Pairwise fun a b => Disjoint a.1.bytes b.1.bytes

def lens (l : List Extent) : ℕ := (l.map Extent.len).sum

@[simp] lemma lens_nil : lens [] = 0 := rfl

@[simp] lemma lens_cons (e : Extent) (l : List Extent) : lens (e :: l) = e.len + lens l := by
  simp [lens]

@[simp] lemma lens_append (l m : List Extent) : lens (l ++ m) = lens l + lens m := by
  simp [lens]

variable {l : List Extent}

variable {x : ℕ} {m : FreeList} {previous : Option Extent} {extents : List Extent}
  {lists : List (List Extent)}

lemma mem_covered : x ∈ covered l ↔ ∃ e ∈ l, e.start ≤ x ∧ x < e.stop := Iff.rfl

@[simp] lemma covered_nil : covered [] = ∅ := support_nil

@[simp] lemma covered_cons (e : Extent) (l : List Extent) :
    covered (e :: l) = e.bytes ∪ covered l := support_cons

lemma covered_singleton (e : Extent) : covered [e] = e.bytes := by simp

@[simp] lemma covered_append (l m : List Extent) : covered (l ++ m) = covered l ∪ covered m :=
  support_append

lemma Extent.bytes_eq (e : Extent) : e.bytes = Set.Ico e.start e.stop := rfl

lemma bytes_subset_covered {e : Extent} (h : e ∈ l) : e.bytes ⊆ covered l :=
  Ico_subset_support h

lemma disjoint_covered_left {s : Set ℕ} : Disjoint (covered l) s ↔ ∀ e ∈ l, Disjoint e.bytes s := by
  refine ⟨fun h e he => h.mono_left (bytes_subset_covered he), fun h => ?_⟩
  rw [Set.disjoint_left]
  rintro x ⟨e, he, hx⟩
  exact Set.disjoint_left.mp (h e he) hx

lemma disjoint_covered_right {s : Set ℕ} :
    Disjoint s (covered l) ↔ ∀ e ∈ l, Disjoint s e.bytes := by
  simp only [disjoint_comm (a := s), disjoint_covered_left]

lemma eq_of_covered_eq {m : List Extent} (hl : SeparatedExtents l) (hm : SeparatedExtents m)
    (h : covered l = covered m) : l = m :=
  hl.eq_of_support_eq Extent.start_lt_stop
    (fun a b hlo hhi => Extent.ext hlo (by rw [a.len_eq, b.len_eq, hlo, hhi])) hm h

/-- Disjoint extents between two addresses are no longer than the distance. -/
lemma add_lens_le (h : AscendingExtents l) {b B : ℕ} (hb : b ≤ B)
    (hl : ∀ e ∈ l, b ≤ e.start ∧ e.stop ≤ B) : b + lens l ≤ B := by
  induction l generalizing b with
  | nil => simpa using hb
  | cons e l ih =>
    obtain ⟨he, htail⟩ := pairwise_cons.mp h
    have hhead := hl e (by simp)
    have hrest := ih htail hhead.2 fun a ha => ⟨he a ha, (hl a (by simp [ha])).2⟩
    rw [lens_cons]
    have := e.stop_eq
    omega

/-- Disjoint extents fit in the address space. -/
lemma lens_lt (h : AscendingExtents l) : lens l < 2 ^ 64 := by
  have := add_lens_le h (b := 0) (B := 2 ^ 64 - 1) (by omega)
    fun e _ => ⟨by omega, by have := e.stop_lt_limit; omega⟩
  omega

lemma Extent.disjoint_iff {a b : Extent} :
    Disjoint a.bytes b.bytes ↔ a.stop ≤ b.start ∨ b.stop ≤ a.start := by
  have ha := a.start_lt_stop
  have hb := b.start_lt_stop
  rw [Set.disjoint_left]
  constructor
  · intro h
    by_contra hc
    have := @h (max a.start b.start)
    simp only [Extent.mem_bytes] at this
    omega
  · intro h x hx hx'
    simp only [Extent.mem_bytes] at hx hx'
    omega

/-- An entry is determined by any of its bytes. -/
lemma eq_of_mem_bytes {C : Type} {l : List (Extent × C)} (h : DisjointReturns l)
    {a b : Extent × C} (ha : a ∈ l) (hb : b ∈ l) (hxa : x ∈ a.1.bytes) (hxb : x ∈ b.1.bytes) :
    a = b := by
  by_contra hne
  exact Set.disjoint_left.mp (h.forall ha hb hne) hxa hxb

namespace FreeList

def bytes (l : FreeList) : Set ℕ := covered l.regions

/-- Separated regions and an exact cached total. -/
structure Canonical (l : FreeList) : Prop where
  separated : SeparatedExtents l.regions
  total : l.totalBytes = lens l.regions

variable {l : FreeList} {e : Extent}

lemma mem_bytes : x ∈ l.bytes ↔ ∃ e ∈ l.regions, e.start ≤ x ∧ x < e.stop := Iff.rfl

lemma canonical_new : new.Canonical := ⟨separated_nil, rfl⟩

@[simp] lemma bytes_new : new.bytes = ∅ := covered_nil

/-- Canonical lists with the same bytes are equal, cached totals included. -/
lemma Canonical.eq_of_bytes_eq (hl : l.Canonical) (hm : m.Canonical) (h : l.bytes = m.bytes) :
    l = m := by
  have hr : l.regions = m.regions := eq_of_covered_eq hl.separated hm.separated h
  exact FreeList.ext hr (by rw [hl.total, hm.total, hr])

lemma disjoint_bytes_iff :
    Disjoint l.bytes e.bytes ↔ ∀ r ∈ l.regions, r.stop ≤ e.start ∨ e.stop ≤ r.start := by
  simp only [bytes, disjoint_covered_left, Extent.disjoint_iff]

lemma subtractBytes_of_le {total n : ℕ} (h : n ≤ total) :
    subtractBytes total n = .ok (total - n) := by
  simp [subtractBytes, checkedSub_eq_some.mpr ⟨h, rfl⟩]

/-! ## Construction -/

/-- Appending an extent past the end of a canonical list adds exactly its bytes. -/
lemma pushSorted_spec (hl : l.Canonical) (he : ∀ r ∈ l.regions, r.stop ≤ e.start) :
    ∃ l', l.pushSorted e = .ok l' ∧ l'.Canonical ∧ l'.bytes = l.bytes ∪ e.bytes ∧
      ∀ r ∈ l'.regions, r.stop ≤ e.stop := by
  have hasc : AscendingExtents (l.regions ++ [e]) :=
    pairwise_append.mpr ⟨hl.separated.ascending, pairwise_singleton _ _, by simpa using he⟩
  have hfit := lens_lt hasc
  have hstop := e.start_lt_stop
  simp only [lens_append, lens_cons, lens_nil, ← hl.total] at hfit
  have hadd := checkedAdd_of_lt (show l.totalBytes + e.len < 2 ^ 64 by omega)
  rcases eq_nil_or_concat' l.regions with hnil | ⟨pre, last, hlast⟩
  · refine ⟨⟨[e], l.totalBytes + e.len⟩, ?_, ⟨separated_singleton, ?_⟩, ?_, by simp⟩
    · simp [pushSorted, hadd, hnil]
    · simp [hl.total, hnil]
    · simp [bytes, hnil]
  · have hsep := hl.separated
    have htotal := hl.total
    rw [hlast] at hsep htotal he
    obtain ⟨hpre, -, hcross⟩ := separated_append.mp hsep
    simp only [mem_singleton, forall_eq] at hcross
    have hlaststop := last.start_lt_stop
    have hle : last.stop ≤ e.start := he last (by simp)
    by_cases htouch : last.stop = e.start
    · -- the last region grows to the end of the extent
      obtain ⟨u, hu, hus, hut⟩ := Extent.exists_between (s := last.start)
        (by omega) e.stop_lt_limit
      refine ⟨⟨pre ++ [u], l.totalBytes + e.len⟩, ?_, ⟨?_, ?_⟩, ?_, ?_⟩
      · simp [pushSorted, hadd, hlast, htouch, hu]
      · refine separated_append.mpr ⟨hpre, separated_singleton, ?_⟩
        simpa [hus] using hcross
      · have := u.len_eq
        have := last.len_eq
        have := e.len_eq
        simp only [lens_append, lens_cons, lens_nil] at htotal ⊢
        omega
      · have hunion := Set.Ico_union_Ico_eq_Ico hlaststop.le (htouch ▸ hstop.le : last.stop ≤ e.stop)
        simp only [bytes, hlast, covered_append, covered_cons, covered_nil, Set.union_empty,
          Extent.bytes_eq, hus, hut, ← hunion, ← htouch, Set.union_assoc]
      · refine forall_mem_append.mpr ⟨fun r hr => ?_, by simp [hut]⟩
        have := he r (by simp [hr])
        omega
    · refine ⟨⟨l.regions ++ [e], l.totalBytes + e.len⟩, ?_, ⟨?_, ?_⟩, ?_, ?_⟩
      · simp [pushSorted, hadd, hlast, htouch]
      · rw [hlast]
        refine separated_append.mpr ⟨hsep, separated_singleton, ?_⟩
        simp only [forall_mem_append, forall_mem_singleton]
        exact ⟨fun a ha => (hcross a ha).trans (by omega), by omega⟩
      · simp [hl.total]
      · simp [bytes]
      · refine forall_mem_append.mpr ⟨fun r hr => ?_, by simp⟩
        have := he r (hlast ▸ hr)
        omega

/-- The order check accepts an extent exactly when it starts at or after the end of the one
before it. -/
lemma orderError_eq_none : orderError previous e = none ↔ ∀ p ∈ previous, p.stop ≤ e.start := by
  cases previous with
  | none => simp [orderError]
  | some p =>
    have := p.start_lt_stop
    simp only [orderError, Option.mem_def, Option.some.injEq, forall_eq']
    split_ifs <;> simp <;> omega

/-- The loop of `fromSorted` accepts exactly ascending extents and adds their bytes. -/
lemma fromSortedLoop_spec (extents : List Extent) (hl : l.Canonical) (previous : Option Extent)
    (hprev : ∀ r ∈ l.regions, ∃ p ∈ previous, r.stop ≤ p.stop) :
    ∃ result, fromSortedLoop l previous extents = .ok result ∧
      (∀ l', result = .ok l' → AscendingExtents (previous.toList ++ extents) ∧ l'.Canonical ∧
        l'.bytes = l.bytes ∪ covered extents) ∧
      (∀ error, result = .error error → ¬ AscendingExtents (previous.toList ++ extents)) := by
  induction extents generalizing l previous with
  | nil =>
    refine ⟨.ok l, rfl, ?_, by simp⟩
    rintro l' ⟨rfl⟩
    refine ⟨?_, hl, by simp⟩
    cases previous <;> simp [AscendingExtents, Ascending]
  | cons e rest ih =>
    cases horder : orderError previous e with
    | some error =>
      refine ⟨.error error, by simp [fromSortedLoop, horder], by simp, ?_⟩
      rintro - - hasc
      have hnone : orderError previous e = none := by
        refine orderError_eq_none.mpr fun p hp => ?_
        exact (pairwise_append.mp hasc).2.2 p (by simpa using hp) e (by simp)
      simp [hnone] at horder
    | none =>
      have hbefore := orderError_eq_none.mp horder
      obtain ⟨l₁, hpush, hcan, hbytes, hstop⟩ := pushSorted_spec hl fun r hr => by
        obtain ⟨p, hp, hle⟩ := hprev r hr
        exact hle.trans (hbefore p hp)
      obtain ⟨result, hloop, hok, herr⟩ := ih hcan (some e)
        fun r hr => ⟨e, rfl, hstop r hr⟩
      have hasc : AscendingExtents ((some e).toList ++ rest) ↔
          AscendingExtents (previous.toList ++ e :: rest) := by
        cases previous with
        | none => simp
        | some p =>
          have hp := hbefore p rfl
          simp only [AscendingExtents, Ascending, Option.toList_some, singleton_append,
            pairwise_cons, mem_cons, forall_eq_or_imp]
          have := e.start_lt_stop
          constructor
          · rintro ⟨h1, h2⟩
            exact ⟨⟨hp, fun a ha => by have := h1 a ha; omega⟩, h1, h2⟩
          · rintro ⟨-, h⟩
            exact h
      refine ⟨result, by simp [fromSortedLoop, horder, hpush, hloop], ?_, ?_⟩
      · intro l' hl'
        obtain ⟨h1, h2, h3⟩ := hok l' hl'
        refine ⟨hasc.mp h1, h2, ?_⟩
        rw [h3, hbytes, covered_cons, Set.union_assoc]
      · intro error herror
        exact fun h => herr error herror (hasc.mpr h)

/-- `fromSorted` returns a canonical list of exactly the given bytes, or refuses extents that are
out of order or overlap. -/
lemma fromSorted_spec (extents : List Extent) :
    ∃ result, fromSorted extents = .ok result ∧
      (∀ l, result = .ok l → AscendingExtents extents ∧ l.Canonical ∧ l.bytes = covered extents) ∧
      (∀ error, result = .error error → ¬ AscendingExtents extents) := by
  obtain ⟨result, h, hok, herr⟩ := fromSortedLoop_spec extents canonical_new none (by simp [new])
  simp only [Option.toList_none, nil_append, bytes_new, Set.empty_union] at hok herr
  exact ⟨result, h, hok, herr⟩

lemma fromSorted_of_ascending (h : AscendingExtents extents) :
    ∃ l, fromSorted extents = .ok (.ok l) ∧ l.Canonical ∧ l.bytes = covered extents := by
  obtain ⟨result, hr, hok, herr⟩ := fromSorted_spec extents
  cases result with
  | ok l => exact ⟨l, hr, (hok l rfl).2⟩
  | error e => exact absurd h (herr e rfl)

/-- Extents in order of their starts are refused only for an overlap. -/
lemma fromSortedLoop_error
    (hsort : (previous.toList ++ extents).Pairwise fun a b => a.start ≤ b.start)
    {error : FreeListError} (h : fromSortedLoop l previous extents = .ok (.error error)) :
    ∃ p n, error = .overlap p n ∧ n.start < p.stop := by
  induction extents generalizing l previous with
  | nil => simp [fromSortedLoop] at h
  | cons e rest ih =>
    cases horder : orderError previous e with
    | some error' =>
      simp only [fromSortedLoop, horder, Except.ok.injEq, Except.error.injEq] at h
      cases previous with
      | none => simp [orderError] at horder
      | some p =>
        have hle : p.start ≤ e.start := by
          simp only [Option.toList_some, singleton_append, pairwise_cons] at hsort
          exact hsort.1 e (by simp)
        simp only [orderError, not_lt.mpr hle, if_false] at horder
        split at horder
        · rename_i hlt
          exact ⟨p, e, by rw [← h, ← Option.some.inj horder], hlt⟩
        · cases horder
    | none =>
      simp only [fromSortedLoop, horder] at h
      obtain ⟨l', -, h⟩ := bind_eq_ok.mp h
      refine ih ?_ h
      exact hsort.sublist (by simp)

/-! ## Merging lists -/

/-- The list `lowestHead` selects starts with an extent no later than any other head. -/
lemma lowestHead_spec {i s : ℕ} (h : lowestHead lists = some (i, s)) :
    ∃ e t, lists[i]? = some (e :: t) ∧ ∀ l ∈ lists, ∀ a ∈ l.head?, e.start ≤ a.start := by
  obtain ⟨hmem, hle⟩ := minByKey_spec h
  obtain ⟨⟨l, j⟩, hl, hhead⟩ := mem_filterMap.mp hmem
  obtain ⟨e, he, hpair⟩ := Option.map_eq_some_iff.mp hhead
  cases hpair
  obtain ⟨t, rfl⟩ := head?_eq_some_iff.mp he
  refine ⟨e, t, mem_zipIdx_iff_getElem?.mp hl, ?_⟩
  intro l' hl' a ha
  obtain ⟨k, hk⟩ := mem_iff_getElem?.mp hl'
  refine hle (k, a.start) (mem_filterMap.mpr ⟨(l', k), mem_zipIdx_iff_getElem?.mpr hk, ?_⟩)
  simp [Option.mem_def.mp ha]

lemma mergeNext_some {rest : List (List Extent)} (h : mergeNext lists = some (e, rest)) :
    ∃ pre t post, lists = pre ++ (e :: t) :: post ∧ rest = pre ++ t :: post ∧
      ∀ l ∈ lists, ∀ a ∈ l.head?, e.start ≤ a.start := by
  simp only [mergeNext, Option.bind_eq_bind, Option.bind_eq_some_iff, Option.some.injEq] at h
  obtain ⟨⟨i, s⟩, hlow, l, hl, e', he', hpair⟩ := h
  obtain ⟨rfl, rfl⟩ := Prod.mk.inj hpair
  obtain ⟨e'', t, hget, hle⟩ := lowestHead_spec hlow
  obtain rfl : l = e'' :: t := Option.some.inj (hl.symm.trans hget)
  obtain rfl : e'' = e' := Option.some.inj he'
  obtain ⟨hlt, hi⟩ := List.getElem?_eq_some_iff.mp hget
  refine ⟨lists.take i, t, lists.drop (i + 1), ?_, ?_, hle⟩
  · rw [← hi, ← drop_eq_getElem_cons hlt, take_append_drop]
  · rw [set_eq_take_append_cons_drop, if_pos hlt]
    rfl

lemma mergeNext_none (h : mergeNext lists = none) : ∀ l ∈ lists, l = [] := by
  cases hlow : lowestHead lists with
  | none =>
    intro l hl
    obtain ⟨k, hk⟩ := mem_iff_getElem?.mp hl
    have hnil := filterMap_eq_nil_iff.mp (minByKey_eq_none.mp hlow) (l, k)
      (mem_zipIdx_iff_getElem?.mpr hk)
    simpa using hnil
  | some p =>
    obtain ⟨e, t, hget, -⟩ := lowestHead_spec hlow
    simp [mergeNext, hlow, hget] at h

lemma mergeExtents_spec (fuel : ℕ) (lists : List (List Extent))
    (hfuel : (lists.map length).sum ≤ fuel)
    (hlists : ∀ l ∈ lists, l.Pairwise fun a b => a.start < b.start) :
    (mergeExtents fuel lists).Perm lists.flatten ∧
      (mergeExtents fuel lists).Pairwise fun a b => a.start ≤ b.start := by
  induction fuel generalizing lists with
  | zero =>
    have hnil : lists.flatten = [] := by
      rw [← length_eq_zero_iff, length_flatten]
      omega
    simp [mergeExtents, hnil]
  | succ fuel ih =>
    cases hnext : mergeNext lists with
    | none =>
      have hnil : lists.flatten = [] := flatten_eq_nil_iff.mpr (mergeNext_none hnext)
      simp [mergeExtents, hnext, hnil]
    | some p =>
      obtain ⟨e, rest⟩ := p
      obtain ⟨pre, t, post, rfl, rfl, hle⟩ := mergeNext_some hnext
      have hlen : ((pre ++ t :: post).map length).sum ≤ fuel := by
        simp only [map_append, map_cons, sum_append, sum_cons,
          length_cons] at hfuel ⊢
        omega
      have htail : ∀ l ∈ pre ++ t :: post, l.Pairwise fun a b => a.start < b.start := by
        simp only [forall_mem_append, forall_mem_cons, pairwise_cons] at hlists ⊢
        exact ⟨hlists.1, hlists.2.1.2, hlists.2.2⟩
      obtain ⟨hperm, hsort⟩ := ih _ hlen htail
      simp only [mergeExtents, hnext]
      constructor
      · simp only [flatten_append, flatten_cons, cons_append] at hperm ⊢
        exact (hperm.cons e).trans perm_middle.symm
      · refine pairwise_cons.mpr ⟨?_, hsort⟩
        -- each list starts no earlier than `e` and ascends from there
        have hall : ∀ l ∈ pre ++ (e :: t) :: post, ∀ a ∈ l, e.start ≤ a.start := by
          intro l hl a ha
          obtain ⟨b, m, rfl⟩ := exists_cons_of_ne_nil (ne_nil_of_mem ha)
          have hb := hle (b :: m) hl b rfl
          rcases mem_cons.mp ha with rfl | ham
          · exact hb
          · exact hb.trans ((pairwise_cons.mp (hlists _ hl)).1 a ham).le
        intro a ha
        obtain ⟨l, hl, hal⟩ := mem_flatten.mp (hperm.subset ha)
        simp only [forall_mem_append, forall_mem_cons] at hall
        rcases mem_append.mp hl with hl | hl
        · exact hall.1 l hl a hal
        · exact forall_mem_cons.mpr ⟨hall.2.1.2, hall.2.2⟩ l hl a hal

lemma pairwise_disjoint_of_ascending {l : List Extent} (h : AscendingExtents l) :
    DisjointExtents l :=
  h.imp fun hab => Extent.disjoint_iff.mpr (.inl hab)

/-- Extents in order of their starts are ascending exactly when they are pairwise disjoint. -/
lemma ascending_iff_disjoint {l : List Extent} (h : l.Pairwise fun a b => a.start ≤ b.start) :
    AscendingExtents l ↔ DisjointExtents l := by
  refine ⟨pairwise_disjoint_of_ascending, fun hl => (h.and hl).imp ?_⟩
  rintro a b ⟨hle, hd⟩
  have := b.start_lt_stop
  have := Extent.disjoint_iff.mp hd
  omega

/-- Disjoint extents ascend once they are sorted by their starts. -/
lemma ascending_of_sorted {l m : List Extent} (hs : l.Pairwise fun a b => a.start ≤ b.start)
    (hperm : l.Perm m) (hd : DisjointExtents m) : AscendingExtents l :=
  (ascending_iff_disjoint hs).mpr (hperm.symm.pairwise hd fun {_ _} h => h.symm)

lemma pairwise_mergeSort_start {β : Type*} (f : β → Extent) (l : List β) :
    (l.mergeSort fun a b => decide ((f a).start ≤ (f b).start)).Pairwise
      fun a b => (f a).start ≤ (f b).start := by
  have hsort : (l.mergeSort fun a b => decide ((f a).start ≤ (f b).start)).Pairwise
      fun a b => decide ((f a).start ≤ (f b).start) = true :=
    pairwise_mergeSort (by intro a b c; simpa using le_trans)
      (by intro a b; simpa using le_total _ _) l
  simpa using hsort

lemma Canonical.pairwise (hl : l.Canonical) : DisjointExtents l.regions :=
  pairwise_disjoint_of_ascending hl.separated.ascending

lemma pairwise_disjoint_append {l m : List Extent}
    (hl : DisjointExtents l) (hm : DisjointExtents m) (h : Disjoint (covered l) (covered m)) :
    DisjointExtents (l ++ m) := by
  rw [disjoint_covered_left] at h
  simp only [disjoint_covered_right] at h
  exact pairwise_append.mpr ⟨hl, hm, h⟩

lemma covered_perm {l m : List Extent} (h : l.Perm m) : covered l = covered m := by
  ext x
  simp only [mem_covered, h.mem_iff]

def unionBytes (lists : List FreeList) : Set ℕ := {x | ∃ l ∈ lists, x ∈ l.bytes}

lemma covered_flatten (lists : List FreeList) :
    covered (lists.map FreeList.regions).flatten = unionBytes lists := by
  ext x
  simp only [mem_covered, unionBytes, Set.mem_ofPred_eq, mem_bytes, mem_flatten, mem_map]
  constructor
  · rintro ⟨e, ⟨_, ⟨l, hl, rfl⟩, he⟩, hx⟩
    exact ⟨l, hl, e, he, hx⟩
  · rintro ⟨l, hl, e, he, hx⟩
    exact ⟨e, ⟨_, ⟨l, hl, rfl⟩, he⟩, hx⟩

lemma disjoint_lists_iff :
    Disjoint l.bytes m.bytes ↔
      ∀ a ∈ l.regions, ∀ b ∈ m.regions, Disjoint a.bytes b.bytes := by
  rw [bytes, disjoint_covered_left]
  simp only [bytes, disjoint_covered_right]

lemma Canonical.pairwise_start (h : l.Canonical) :
    l.regions.Pairwise fun a b => a.start < b.start :=
  h.separated.imp fun {a _} hab => a.start_lt_stop.trans hab

/-- `fromLists` returns the canonical union of disjoint lists and refuses lists that overlap. -/
lemma fromLists_spec {lists : List FreeList} (hlists : ∀ l ∈ lists, l.Canonical) :
    ∃ result, fromLists lists = .ok result ∧
      (∀ l, result = .ok l → lists.Pairwise (fun a b => Disjoint a.bytes b.bytes) ∧
        l.Canonical ∧ l.bytes = unionBytes lists) ∧
      (∀ error, result = .error error → ¬ lists.Pairwise (fun a b => Disjoint a.bytes b.bytes) ∧
        ∃ p n, error = .overlap p n ∧ n.start < p.stop) := by
  have hregions : ∀ l ∈ lists.map FreeList.regions, l.Pairwise fun a b => a.start < b.start := by
    intro l hl
    obtain ⟨m, hm, rfl⟩ := mem_map.mp hl
    exact (hlists m hm).pairwise_start
  obtain ⟨hperm, hsort⟩ := mergeExtents_spec _ _ le_rfl hregions
  obtain ⟨merged, hmerged⟩ : ∃ merged, merged = mergeExtents
      ((lists.map FreeList.regions).map length).sum (lists.map FreeList.regions) := ⟨_, rfl⟩
  have hfrom : fromLists lists = fromSorted merged := by rw [hmerged, fromLists]
  rw [← hmerged] at hperm hsort
  have hdisj : AscendingExtents merged ↔ lists.Pairwise fun a b => Disjoint a.bytes b.bytes := by
    rw [ascending_iff_disjoint hsort, DisjointExtents, hperm.pairwise_iff fun {_ _} h => h.symm,
      pairwise_flatten, pairwise_map]
    simp only [← disjoint_lists_iff, and_iff_right_iff_imp, forall_mem_map]
    exact fun _ l hl => (hlists l hl).pairwise
  obtain ⟨result, hr, hok, herr⟩ := fromSorted_spec merged
  refine ⟨result, hfrom.trans hr, ?_, ?_⟩
  · intro l hl
    obtain ⟨hasc, hcan, hbytes⟩ := hok l hl
    exact ⟨hdisj.mp hasc, hcan, by rw [hbytes, covered_perm hperm, covered_flatten]⟩
  · intro error herror
    refine ⟨fun hd => herr error herror (hdisj.mpr hd), ?_⟩
    subst herror
    exact fromSortedLoop_error (show (Option.toList none ++ merged).Pairwise _ from hsort) hr

lemma fromLists_of_disjoint {lists : List FreeList} (hlists : ∀ l ∈ lists, l.Canonical)
    (hd : lists.Pairwise fun a b => Disjoint a.bytes b.bytes) :
    ∃ l, fromLists lists = .ok (.ok l) ∧ l.Canonical ∧ l.bytes = unionBytes lists := by
  obtain ⟨result, hr, hok, herr⟩ := fromLists_spec hlists
  cases result with
  | ok l => exact ⟨l, hr, (hok l rfl).2⟩
  | error e => exact absurd hd (herr e rfl).1

/-! ## Recording a free extent -/

/-- A prefix of the regions leaves the list, its union with `[s, t)` is one interval, and the others
lie beyond a gap. -/
lemma mergeRun_spec {rest : List Extent} (hsep : SeparatedExtents rest) (s t total : ℕ)
    (hst : s ≤ t) (htouch : ∀ r ∈ rest, s ≤ r.stop)
    (hd : ∀ r ∈ rest, r.stop ≤ e.start ∨ e.stop ≤ r.start) (htotal : lens rest ≤ total) :
    ∃ s' t' total' merged after, mergeRun e s t total rest = .ok (s', t', total', after) ∧
      rest = merged ++ after ∧ total' + lens merged = total ∧
      s' ≤ s ∧ t ≤ t' ∧ (t < 2 ^ 64 → t' < 2 ^ 64) ∧
      (∀ b, b < s → (∀ r ∈ rest, b < r.start) → b < s') ∧
      (∀ r ∈ after, t' < r.start) ∧ Set.Ico s' t' = Set.Ico s t ∪ covered merged := by
  induction rest generalizing s t total with
  | nil =>
    exact ⟨s, t, total, [], [], rfl, rfl, by simp, le_rfl, le_rfl, id, by simp, by simp, by simp⟩
  | cons r rest ih =>
    obtain ⟨hr, hrest⟩ := separated_cons.mp hsep
    have hpos := r.start_lt_stop
    by_cases hmeet : r.start ≤ t
    · have hsr : s ≤ r.stop := htouch r (by simp)
      rw [lens_cons] at htotal
      obtain ⟨s', t', total', merged, after, hrun, hsplit, hsum, hs, ht, hlt, hlow, hafter, hset⟩ :=
        ih hrest (min s r.start) (max t r.stop) (total - r.len)
          (by omega) (fun a ha => by have := hr a ha; have := a.start_lt_stop; omega)
          (fun a ha => hd a (by simp [ha])) (by omega)
      refine ⟨s', t', total', r :: merged, after, ?_, by simp [hsplit], ?_, by omega, by omega, ?_,
        ?_, hafter, ?_⟩
      · have hassert : (decide (e.stop ≤ r.start) || decide (r.stop ≤ e.start)) = true := by
          rcases hd r (by simp) with h | h <;> simp [h]
        simp [mergeRun, hmeet, assert_of hassert, checkedSub, show r.len ≤ total by omega, hrun]
      · rw [lens_cons]
        omega
      · have := r.stop_lt_limit
        exact fun h => hlt (by omega)
      · intro b hb hbr
        have := hbr r (by simp)
        exact hlow b (by omega) fun a ha => hbr a (by simp [ha])
      · have hunion : Set.Ico (min s r.start) (max t r.stop) = Set.Ico s t ∪ r.bytes := by
          ext x
          simp only [Set.mem_Ico, Set.mem_union, Extent.mem_bytes]
          omega
        rw [hset, hunion, covered_cons, Set.union_assoc]
    · refine ⟨s, t, total, [], r :: rest, by simp [mergeRun, hmeet], rfl, by simp, le_rfl, le_rfl,
        id, fun _ hb _ => hb, ?_, by simp⟩
      exact forall_mem_cons.mpr ⟨not_le.mp hmeet, fun a ha => by have := hr a ha; omega⟩

/-- The regions that `dropWhile` keeps reach `x`. -/
lemma dropWhile_stop_le {l : List Extent} (hl : SeparatedExtents l) {r : Extent}
    (hr : r ∈ l.dropWhile fun r => r.stop < x) : ¬ r.stop < x := by
  have hup : l.Pairwise fun a b => decide (b.stop < x) → decide (a.stop < x) :=
    hl.imp fun {a b} hab hb => by
      have := b.start_lt_stop
      simp only [decide_eq_true_eq] at hb ⊢
      omega
  simpa using not_of_mem_dropWhile hup r hr

/-- `free` of an extent disjoint from a canonical list adds exactly its bytes. -/
lemma free_spec (hl : l.Canonical) (hd : Disjoint l.bytes e.bytes) :
    ∃ l', l.free e = .ok l' ∧ l'.Canonical ∧ l'.bytes = l.bytes ∪ e.bytes := by
  rw [disjoint_bytes_iff] at hd
  obtain ⟨before, hbefore⟩ : ∃ b, b = l.regions.takeWhile fun r => r.stop < e.start := ⟨_, rfl⟩
  obtain ⟨rest, hrest⟩ : ∃ b, b = l.regions.dropWhile fun r => r.stop < e.start := ⟨_, rfl⟩
  have hsplit : l.regions = before ++ rest := by
    rw [hbefore, hrest, takeWhile_append_dropWhile]
  have hleft : ∀ r ∈ before, r.stop < e.start := by
    intro r hr
    rw [hbefore] at hr
    simpa using mem_takeWhile_imp hr
  have hsep := hl.separated
  have htotal := hl.total
  rw [hsplit] at hsep htotal hd
  obtain ⟨hsb, hsr, hcross⟩ := separated_append.mp hsep
  have htouch : ∀ r ∈ rest, e.start ≤ r.stop := by
    intro r hr
    have := dropWhile_stop_le hl.separated (hrest ▸ hr)
    omega
  rw [lens_append] at htotal
  obtain ⟨s, t, total, merged, after, hrun, hms, hsum, hs, ht, hlt, hlow, hafter, hset⟩ :=
    mergeRun_spec hsr e.start e.stop l.totalBytes e.start_lt_stop.le htouch
      (fun r hr => hd r (by simp [hr])) (by omega)
  have hpos := e.start_lt_stop
  obtain ⟨u, hu, hus, hut⟩ := Extent.exists_between (s := s) (by omega)
    (hlt e.stop_lt_limit)
  have hgap : ∀ r ∈ before, r.stop < s := fun r hr => hlow _ (hleft r hr) (hcross r hr)
  have hsepAfter : SeparatedExtents (u :: after) := by
    refine separated_cons.mpr ⟨fun a ha => by rw [hut]; exact hafter a ha, ?_⟩
    exact hsr.sublist (hms ▸ sublist_append_right merged after)
  have hnew : SeparatedExtents (before ++ u :: after) := by
    refine separated_append.mpr ⟨hsb, hsepAfter, ?_⟩
    intro a ha
    rw [forall_mem_cons, hus]
    exact ⟨hgap a ha, fun b hb => hcross a ha b (by simp [hms, hb])⟩
  have hlens := lens_lt hnew.ascending
  rw [hms, lens_append] at htotal
  simp only [lens_append, lens_cons] at hlens
  refine ⟨⟨before ++ u :: after, total + u.len⟩, ?_, ⟨hnew, ?_⟩, ?_⟩
  · have hadd := checkedAdd_of_lt (show total + u.len < 2 ^ 64 by omega)
    simp [free, ← hbefore, ← hrest, hrun, hu, hadd]
  · simp only [lens_append, lens_cons]
    omega
  · have hub : u.bytes = e.bytes ∪ covered merged := by
      rw [Extent.bytes_eq, hus, hut, hset, Extent.bytes_eq]
    simp only [bytes, hsplit, hms, covered_append, covered_cons, hub]
    ac_rfl

end FreeList

end Hdf5Pure.Space
