import Mathlib

/-!
# Lists of half-open intervals

A list of values that each denote a nonempty half-open interval `[lo a, hi a)` of a linear
order. `support` is the set of points such a list covers, `Ascending` says that its intervals
are disjoint and in order, and `Separated` that there is also a gap between any two of them.

A separated list is the unique one with its support (`Separated.eq_of_support_eq`), so two
algorithms that maintain separated lists agree as soon as they agree on sets of points.
-/

namespace Hdf5Pure.IntervalLists

open List

variable {ι α : Type*} [LinearOrder α]

section Support

variable (lo hi : ι → α)

/-- The points covered by the intervals of a list. -/
def support (l : List ι) : Set α := {x | ∃ a ∈ l, lo a ≤ x ∧ x < hi a}

/-- Disjoint intervals in ascending order. Neighbours may touch. -/
def Ascending (l : List ι) : Prop := l.Pairwise fun a b => hi a ≤ lo b

/-- Intervals in ascending order with a gap between any two of them. -/
def Separated (l : List ι) : Prop := l.Pairwise fun a b => hi a < lo b

end Support

variable {lo hi : ι → α} {l m pre post mid : List ι} {r : ι}

@[simp] lemma support_nil : support lo hi [] = ∅ := by
  ext x
  simp [support]

@[simp] lemma support_cons : support lo hi (r :: l) = Set.Ico (lo r) (hi r) ∪ support lo hi l := by
  ext x
  simp [support]

@[simp] lemma support_append : support lo hi (l ++ m) = support lo hi l ∪ support lo hi m := by
  ext x
  simp [support, or_and_right, exists_or]

lemma Ico_subset_support (h : r ∈ l) : Set.Ico (lo r) (hi r) ⊆ support lo hi l :=
  fun _ hx => ⟨r, h, hx⟩

lemma Separated.ascending (h : Separated lo hi l) : Ascending lo hi l :=
  h.imp fun hab => hab.le

@[simp] lemma separated_nil : Separated lo hi ([] : List ι) := List.Pairwise.nil

lemma separated_singleton : Separated lo hi [r] := pairwise_singleton _ _

lemma separated_cons : Separated lo hi (r :: l) ↔ (∀ a ∈ l, hi r < lo a) ∧ Separated lo hi l :=
  pairwise_cons

lemma separated_append :
    Separated lo hi (l ++ m) ↔
      Separated lo hi l ∧ Separated lo hi m ∧ ∀ a ∈ l, ∀ b ∈ m, hi a < lo b :=
  pairwise_append

lemma Separated.sublist (h : Separated lo hi l) (hm : m.Sublist l) : Separated lo hi m :=
  List.Pairwise.sublist hm h

/-- Where a predicate that fails once keeps failing, everything `dropWhile` keeps fails it. -/
lemma not_of_mem_dropWhile {p : ι → Bool} (h : l.Pairwise fun a b => p b → p a) :
    ∀ a ∈ l.dropWhile p, p a = false := by
  induction l with
  | nil => simp
  | cons b l ih =>
    obtain ⟨hb, hl⟩ := pairwise_cons.mp h
    rw [dropWhile_cons]
    split
    · exact ih hl
    rename_i hpb
    intro a ha
    rcases mem_cons.mp ha with rfl | ha
    · simpa using hpb
    · by_contra hpa
      exact hpb (hb a ha (by simpa using hpa))

/-- Two intervals of a separated list have a gap between them. -/
lemma Separated.apart (h : Separated lo hi l) {a b : ι} (ha : a ∈ l) (hb : b ∈ l) (hne : a ≠ b) :
    hi a < lo b ∨ hi b < lo a := by
  have hsymm : l.Pairwise fun a b => hi a < lo b ∨ hi b < lo a := h.imp .inl
  have : Std.Symm fun a b : ι => hi a < lo b ∨ hi b < lo a := ⟨fun _ _ => Or.symm⟩
  exact hsymm.forall ha hb hne

/-- What a separated list covers without a break lies in one of its intervals. -/
lemma Separated.exists_of_Ico_subset (h : Separated lo hi l) {s t : α} (hst : s < t)
    (hsub : Set.Ico s t ⊆ support lo hi l) : ∃ a ∈ l, lo a ≤ s ∧ t ≤ hi a := by
  obtain ⟨a, ha, hlo, hhi⟩ := hsub (Set.left_mem_Ico.mpr hst)
  refine ⟨a, ha, hlo, ?_⟩
  by_contra hlt
  rw [not_le] at hlt
  -- the end of the interval would belong to another one, which touches it
  obtain ⟨b, hb, hlo', hhi'⟩ := hsub ⟨hhi.le, hlt⟩
  have hne : a ≠ b := by
    rintro rfl
    exact lt_irrefl _ hhi'
  rcases h.apart ha hb hne with hab | hba
  · exact absurd hab (not_lt.mpr hlo')
  · exact lt_asymm (hba.trans_le hlo) (hhi.trans hhi')

/-! ## Replacing one interval -/

/-- Replacing an interval by separated intervals inside it keeps a list separated. -/
lemma Separated.splice (h : Separated lo hi (pre ++ r :: post)) (hmid : Separated lo hi mid)
    (hin : ∀ a ∈ mid, lo r ≤ lo a ∧ hi a ≤ hi r) : Separated lo hi (pre ++ (mid ++ post)) := by
  obtain ⟨hpre, hpost, hcross⟩ := separated_append.mp h
  obtain ⟨hr, hpost⟩ := separated_cons.mp hpost
  refine separated_append.mpr ⟨hpre, separated_append.mpr ⟨hmid, hpost, ?_⟩, ?_⟩
  · intro a ha b hb
    exact lt_of_le_of_lt (hin a ha).2 (hr b hb)
  · intro a ha b hb
    rcases mem_append.mp hb with hb | hb
    · exact lt_of_lt_of_le (hcross a ha r (by simp)) (hin b hb).1
    · exact hcross a ha b (by simp [hb])

/-- The points of one interval of an ascending list belong to no other. -/
lemma Ascending.disjoint_rest (h : Ascending lo hi (pre ++ r :: post)) :
    Disjoint (support lo hi pre ∪ support lo hi post) (Set.Ico (lo r) (hi r)) := by
  obtain ⟨-, hpost, hcross⟩ := pairwise_append.mp h
  obtain ⟨hr, -⟩ := pairwise_cons.mp hpost
  rw [Set.disjoint_left]
  rintro x (⟨a, ha, hx⟩ | ⟨a, ha, hx⟩) ⟨h1, h2⟩
  · exact absurd (hcross a ha r (by simp)) (not_le.mpr (lt_of_le_of_lt h1 hx.2))
  · exact absurd (hr a ha) (not_le.mpr (lt_of_le_of_lt hx.1 h2))

/-! ## Lists built interval by interval -/

/-- Separated pieces of the intervals of a separated list are separated. -/
lemma Separated.flatMap (h : Separated lo hi l) {f : ι → List ι}
    (hf : ∀ a ∈ l, Separated lo hi (f a) ∧ ∀ b ∈ f a, lo a ≤ lo b ∧ hi b ≤ hi a) :
    Separated lo hi (l.flatMap f) := by
  induction l with
  | nil => simp
  | cons a l ih =>
    obtain ⟨ha, hl⟩ := separated_cons.mp h
    refine separated_append.mpr ⟨(hf a (by simp)).1, ih hl fun b hb => hf b (by simp [hb]), ?_⟩
    intro b hb c hc
    obtain ⟨d, hd, hc⟩ := mem_flatMap.mp hc
    have h1 := ((hf a (by simp)).2 b hb).2
    have h2 := ((hf d (by simp [hd])).2 c hc).1
    exact lt_of_le_of_lt h1 (lt_of_lt_of_le (ha d hd) h2)

/-! ## Uniqueness -/

section Unique

variable (hne : ∀ a, lo a < hi a) (hext : ∀ a b, lo a = lo b → hi a = hi b → a = b)

include hne in
/-- The first interval of a separated list starts at the least point of any list with the
same support. -/
private lemma lo_head_le {a b : ι} (hm : Separated lo hi (b :: m))
    (h : support lo hi (a :: l) ⊆ support lo hi (b :: m)) : lo b ≤ lo a := by
  obtain ⟨c, hc, hca, -⟩ := h (show lo a ∈ _ from ⟨a, by simp, le_rfl, hne a⟩)
  rcases mem_cons.mp hc with rfl | hc
  · exact hca
  · exact ((hne b).trans ((separated_cons.mp hm).1 c hc)).le.trans hca

include hne in
/-- The first interval of a separated list ends no later than that of a list which starts at the
same point and covers at least as much. -/
private lemma hi_head_le {a b : ι} (hm : Separated lo hi (b :: m)) (hab : lo a = lo b)
    (h : support lo hi (a :: l) ⊆ support lo hi (b :: m)) : hi a ≤ hi b := by
  by_contra hlt
  rw [not_le] at hlt
  obtain ⟨c, hc, hcx⟩ := h (show hi b ∈ _ from ⟨a, by simp, hab ▸ (hne b).le, hlt⟩)
  rcases mem_cons.mp hc with rfl | hc
  · exact lt_irrefl _ hcx.2
  · exact absurd ((separated_cons.mp hm).1 c hc) (not_lt.mpr hcx.1)

/-- The tail of a separated list covers what the list covers outside its first interval. -/
private lemma support_tail (h : Separated lo hi (r :: l)) :
    support lo hi l = support lo hi (r :: l) \ Set.Ico (lo r) (hi r) := by
  have hd := Set.disjoint_left.mp (Ascending.disjoint_rest (show Ascending lo hi ([] ++ r :: l) from
    h.ascending))
  ext x
  simp only [support_cons, Set.mem_sdiff, Set.mem_union]
  have := @hd x
  simp only [support_nil, Set.empty_union] at this
  tauto

include hne hext in
/-- Separated lists of nonempty intervals with one support are equal. -/
lemma Separated.eq_of_support_eq (hl : Separated lo hi l) (hm : Separated lo hi m)
    (h : support lo hi l = support lo hi m) : l = m := by
  induction l generalizing m with
  | nil =>
    cases m with
    | nil => rfl
    | cons b m =>
      have : lo b ∈ support lo hi ([] : List ι) := h ▸ ⟨b, by simp, le_rfl, hne b⟩
      simp at this
  | cons a l ih =>
    cases m with
    | nil =>
      have : lo a ∈ support lo hi ([] : List ι) := h ▸ ⟨a, by simp, le_rfl, hne a⟩
      simp at this
    | cons b m =>
      have hlo : lo a = lo b := le_antisymm (lo_head_le hne hl h.ge) (lo_head_le hne hm h.le)
      have hhi : hi a = hi b :=
        le_antisymm (hi_head_le hne hm hlo h.le) (hi_head_le hne hl hlo.symm h.ge)
      obtain rfl := hext a b hlo hhi
      rw [ih (separated_cons.mp hl).2 (separated_cons.mp hm).2]
      rw [support_tail hl, support_tail hm, h]

end Unique

omit [LinearOrder α] in
/-- Disjoint sets that each contain one of some nonempty sets are no more than these. -/
lemma length_le_of_subset {β γ : Type*} {f : β → Set α} {g : γ → Set α} {l : List β} {m : List γ}
    (hdisj : l.Pairwise fun a b => Disjoint (f a) (f b)) (hne : ∀ b ∈ m, (g b).Nonempty)
    (h : ∀ a ∈ l, ∃ b ∈ m, g b ⊆ f a) : l.length ≤ m.length := by
  classical
  induction l generalizing m with
  | nil => exact Nat.zero_le _
  | cons a l ih =>
    obtain ⟨ha, hl⟩ := pairwise_cons.mp hdisj
    obtain ⟨b, hb, hba⟩ := h a (by simp)
    -- the set that `a` contains is in none of the others
    have hrest : ∀ a' ∈ l, ∃ b' ∈ m.erase b, g b' ⊆ f a' := by
      intro a' ha'
      obtain ⟨b', hb', hba'⟩ := h a' (mem_cons_of_mem _ ha')
      refine ⟨b', (mem_erase_of_ne ?_).mpr hb', hba'⟩
      rintro rfl
      obtain ⟨x, hx⟩ := hne b' hb
      exact Set.disjoint_left.mp (ha a' ha') (hba hx) (hba' hx)
    have hlen := ih hl (fun c hc => hne c (mem_of_mem_erase hc)) hrest
    have herase := length_erase_of_mem hb
    have hpos := length_pos_of_mem hb
    rw [length_cons]
    omega

end Hdf5Pure.IntervalLists
