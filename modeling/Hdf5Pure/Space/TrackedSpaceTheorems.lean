import Hdf5Pure.Space.TrackedSpace
import Hdf5Pure.Utils.Saturation

/-!
# The default batch admits the least closed set

If the admission of an extent depends on the admitted returns monotonically, `releaseEach` admits
exactly the returns that the rule forces, in any order of the batch.
-/

namespace Hdf5Pure.Space.TrackedSpace

open Checked Saturation List

variable {S C : Type}

/-- The admission rule: a return is long enough or merges into what is tracked. -/
def Eligible (threshold : ℕ) (near : Set (Extent × C) → Extent → Prop) (A : Set (Extent × C))
    (entry : Extent × C) : Prop :=
  threshold ≤ entry.1.len ∨ near A entry.1

/-- The returns split into admitted and pending ones, and the admitted ones were forced. -/
structure Decided (threshold : ℕ) (returns : List (Extent × C))
    (near : Set (Extent × C) → Extent → Prop) (Holds : S → List (Extent × C) → Prop) (space : S)
    (taken pending : List (Extent × C)) : Prop where
  split : returns.Perm (taken ++ pending)
  holds : Holds space taken
  forced : Forced {x | x ∈ returns} (Eligible threshold near) {x | x ∈ taken}

variable {threshold : ℕ} {returns taken kept rest pending : List (Extent × C)}
  {near : Set (Extent × C) → Extent → Prop} {Holds : S → List (Extent × C) → Prop} {space : S}
  {entry : Extent × C}

lemma decided_start (hstart : Holds space []) (threshold : ℕ) (returns : List (Extent × C)) :
    Decided threshold returns near Holds space [] returns :=
  ⟨List.Perm.refl _, hstart, by simpa using forced_empty⟩

/-- The batch is done: the admitted returns are the least closed set. -/
structure Concluded (threshold : ℕ) (returns : List (Extent × C))
    (near : Set (Extent × C) → Extent → Prop) (Holds : S → List (Extent × C) → Prop) (space : S)
    (taken dropped : List (Extent × C)) : Prop where
  split : returns.Perm (taken ++ dropped)
  holds : Holds space taken
  saturated : Saturated {x | x ∈ returns} (Eligible threshold near) {x | x ∈ taken}

/-- Nothing is left to do once no pending return is eligible. -/
lemma Decided.concluded (h : Decided threshold returns near Holds space taken pending)
    (hall : ∀ e ∈ pending, ¬ Eligible threshold near {x | x ∈ taken} e) :
    Concluded threshold returns near Holds space taken pending := by
  refine ⟨h.split, h.holds, ?_, h.forced⟩
  intro e he heligible
  rcases mem_append.mp (h.split.mem_iff.mp he) with htaken | hpend
  · exact htaken
  · exact absurd heligible (hall e hpend)

lemma concluded_nil (hstart : Holds space []) : Concluded threshold [] near Holds space [] [] :=
  (decided_start hstart threshold []).concluded (by simp)

lemma Decided.undecided (h : Decided threshold returns near Holds space taken (kept ++ entry :: rest))
    (hnodup : returns.Nodup) : taken ⊆ returns ∧ entry ∈ returns ∧ entry ∉ taken := by
  have hmem : entry ∈ kept ++ entry :: rest := by simp
  refine ⟨fun x hx => h.split.mem_iff.mpr (mem_append_left _ hx),
    h.split.mem_iff.mpr (mem_append_right _ hmem), ?_⟩
  intro htaken
  have hd := nodup_append.mp (h.split.nodup_iff.mp hnodup)
  exact hd.2.2 entry htaken entry hmem rfl

/-- Two batches of the same returns, in any two orders, end alike. -/
lemma Concluded.unique {returns' taken' dropped dropped' : List (Extent × C)} {space' : S}
    (h : Concluded threshold returns near Holds space taken dropped)
    (h' : Concluded threshold returns' near Holds space' taken' dropped')
    (hperm : returns'.Perm returns) (hnodup : returns.Nodup)
    (hsame : {x | x ∈ taken'} = {x | x ∈ taken} → space' = space) :
    space' = space ∧ dropped'.Perm dropped := by
  have hset : {x | x ∈ returns'} = {x | x ∈ returns} := by
    ext x
    exact hperm.mem_iff
  have hsat := h'.saturated
  rw [hset] at hsat
  have heq := hsat.unique h.saturated
  refine ⟨hsame heq, ?_⟩
  have hsplit := hperm.symm.trans h'.split
  have htaken : taken'.Perm taken := by
    refine (perm_ext_iff_of_nodup (nodup_append.mp (hsplit.nodup_iff.mp hnodup)).1
      (nodup_append.mp (h.split.nodup_iff.mp hnodup)).1).mpr ?_
    intro x
    exact Set.ext_iff.mp heq x
  have hboth : (taken ++ dropped').Perm (taken ++ dropped) :=
    (htaken.symm.append_right dropped').trans (hsplit.symm.trans h.split)
  exact (perm_append_left_iff taken).mp hboth

/-! ## One decision -/

variable [TrackedSpace S C]

/-- `Holds space taken` says that `taken` was added to the initial space, and `near` where an extent
merges then. -/
structure Follows (returns : List (Extent × C)) (near : Set (Extent × C) → Extent → Prop)
    (Holds : S → List (Extent × C) → Prop) : Prop where
  mono : ∀ {A B : Set (Extent × C)} {e : Extent}, A ⊆ B → near A e → near B e
  merges : ∀ {space : S} {taken : List (Extent × C)} {entry : Extent × C}, Holds space taken →
    taken ⊆ returns → entry ∈ returns → entry ∉ taken →
    (merges space entry.1 = true ↔ near {x | x ∈ taken} entry.1)
  track : ∀ {space : S} {taken : List (Extent × C)} {entry : Extent × C}, Holds space taken →
    taken ⊆ returns → entry ∈ returns → entry ∉ taken →
    ∃ space', track space entry.1 entry.2 = .ok space' ∧ Holds space' (entry :: taken)

lemma Eligible.mono (h : Follows returns near Holds) {A B : Set (Extent × C)} (hsub : A ⊆ B)
    (he : Eligible threshold near A entry) : Eligible threshold near B entry :=
  he.imp_right (h.mono hsub)

section

variable (hfollows : Follows returns near Holds) (hnodup : returns.Nodup)

include hfollows hnodup

lemma Decided.track (h : Decided threshold returns near Holds space taken (kept ++ entry :: rest))
    (heligible : Eligible threshold near {x | x ∈ taken} entry) :
    ∃ space', TrackedSpace.track space entry.1 entry.2 = .ok space' ∧
      Decided threshold returns near Holds space' (entry :: taken) (kept ++ rest) := by
  obtain ⟨hsub, hmem, hnot⟩ := h.undecided hnodup
  obtain ⟨space', htrack, hholds⟩ := hfollows.track h.holds hsub hmem hnot
  refine ⟨space', htrack, ?_, hholds, ?_⟩
  · refine h.split.trans ?_
    rw [cons_append, ← append_assoc, ← append_assoc]
    exact perm_middle
  · have hset : {x | x ∈ entry :: taken} = insert entry {x | x ∈ taken} := by
      ext x
      simp
    rw [hset]
    exact h.forced.insert (fun B hB he => he.mono hfollows hB) hmem heligible

/-- One decision: the return is admitted, or it is not eligible and nothing changes. -/
lemma Decided.release
    (h : Decided threshold returns near Holds space taken (kept ++ entry :: rest)) :
    ∃ r space', TrackedSpace.release space threshold entry.1 entry.2 = .ok (r, space') ∧
      (r = .drop → space' = space ∧ ¬ Eligible threshold near {x | x ∈ taken} entry) ∧
      (r ≠ .drop → Decided threshold returns near Holds space' (entry :: taken) (kept ++ rest)) := by
  obtain ⟨hsub, hmem, hnot⟩ := h.undecided hnodup
  have hmerges := hfollows.merges h.holds hsub hmem hnot
  by_cases heligible : Eligible threshold near {x | x ∈ taken} entry
  · obtain ⟨space', htrack, hdecided⟩ := h.track hfollows hnodup heligible
    rw [release_eq htrack]
    split_ifs with hlen hmerge
    · exact ⟨.track, space', rfl, nofun, fun _ => hdecided⟩
    · exact ⟨.merge, space', rfl, nofun, fun _ => hdecided⟩
    · exact absurd (hmerges.mpr (heligible.resolve_left hlen)) hmerge
  · have hlen : ¬ threshold ≤ entry.1.len := fun hlen => heligible (.inl hlen)
    have hmerge : ¬ TrackedSpace.merges space entry.1 = true := by
      intro hmerge
      exact heligible (.inr (hmerges.mp hmerge))
    exact ⟨.drop, space, by simp [TrackedSpace.release, hlen, hmerge],
      fun _ => ⟨rfl, heligible⟩, by simp⟩

/-! ## The passes -/

lemma Decided.trackEach (h : Decided threshold returns near Holds space taken (kept ++ rest))
    (hlong : ∀ e ∈ rest, threshold ≤ e.1.len) :
    ∃ space' taken', TrackedSpace.trackEach space rest = .ok space' ∧
      Decided threshold returns near Holds space' taken' kept := by
  induction rest generalizing space taken with
  | nil => exact ⟨space, taken, rfl, by simpa using h⟩
  | cons entry rest ih =>
    obtain ⟨space₁, htrack, h₁⟩ :=
      h.track hfollows hnodup (.inl (hlong entry mem_cons_self))
    obtain ⟨space', taken', heach, h'⟩ := ih h₁ fun e he => hlong e (mem_cons_of_mem _ he)
    exact ⟨space', taken', by simp [TrackedSpace.trackEach, htrack, heach], h'⟩

/-- A pass either leaves fewer returns or finds none of them eligible. -/
lemma Decided.offerEach (h : Decided threshold returns near Holds space taken (kept ++ rest)) :
    ∃ dropped space' taken', TrackedSpace.offerEach threshold space rest = .ok (dropped, space') ∧
      Decided threshold returns near Holds space' taken' (kept ++ dropped) ∧
      dropped.length ≤ rest.length ∧
      (dropped.length = rest.length → dropped = rest ∧ taken' = taken ∧
        ∀ e ∈ rest, ¬ Eligible threshold near {x | x ∈ taken} e) := by
  induction rest generalizing space taken kept with
  | nil => exact ⟨[], space, taken, rfl, h, le_rfl, fun _ => ⟨rfl, rfl, by simp⟩⟩
  | cons entry rest ih =>
    obtain ⟨r, space₁, hrelease, hdrop, hkeep⟩ := h.release hfollows hnodup
    by_cases hr : r = .drop
    · -- the return stays pending, before those that the rest of the pass keeps
      obtain ⟨rfl, hnot⟩ := hdrop hr
      have h₁ : Decided threshold returns near Holds space₁ taken ((kept ++ [entry]) ++ rest) := by
        rwa [append_assoc]
      obtain ⟨dropped, space', taken', hoffer, h', hle, hsame⟩ := ih h₁
      refine ⟨entry :: dropped, space', taken', ?_, by rwa [append_assoc] at h',
        Nat.succ_le_succ hle, ?_⟩
      · simp [TrackedSpace.offerEach, hrelease, hoffer, hr]
      · intro hlen
        obtain ⟨rfl, rfl, hall⟩ := hsame (Nat.succ_injective hlen)
        exact ⟨rfl, rfl, forall_mem_cons.mpr ⟨hnot, hall⟩⟩
    · obtain ⟨dropped, space', taken', hoffer, h', hle, -⟩ := ih (hkeep hr)
      refine ⟨dropped, space', taken', ?_, h', Nat.le_succ_of_le hle, ?_⟩
      · simp [TrackedSpace.offerEach, hrelease, hoffer, hr]
      · intro hlen
        rw [length_cons] at hlen
        omega

/-- The passes end, and no return that is left is eligible. -/
lemma Decided.offerAll (fuel : ℕ)
    (h : Decided threshold returns near Holds space taken pending) (hfuel : pending.length < fuel) :
    ∃ dropped space' taken',
      TrackedSpace.offerAll threshold fuel space pending = .ok (dropped, space') ∧
      Decided threshold returns near Holds space' taken' dropped ∧
      ∀ e ∈ dropped, ¬ Eligible threshold near {x | x ∈ taken'} e := by
  induction fuel generalizing space taken pending with
  | zero => omega
  | succ fuel ih =>
    have hbegin : Decided threshold returns near Holds space taken ([] ++ pending) := h
    obtain ⟨dropped, space₁, taken₁, hoffer, h₁, hle, hsame⟩ :=
      hbegin.offerEach hfollows hnodup
    rw [nil_append] at h₁
    by_cases hlen : dropped.length = pending.length
    · obtain ⟨rfl, rfl, hall⟩ := hsame hlen
      exact ⟨dropped, space₁, taken₁, by simp [TrackedSpace.offerAll, hoffer], h₁, hall⟩
    · obtain ⟨dropped', space', taken', hoffer', h', hall⟩ := ih h₁ (by omega)
      refine ⟨dropped', space', taken', ?_, h', hall⟩
      simp [TrackedSpace.offerAll, hoffer, hlen, hoffer']

lemma releaseEach_spec (hstart : Holds space []) (threshold : ℕ) :
    ∃ dropped space' taken', releaseEach space threshold returns = .ok (dropped, space') ∧
      Concluded threshold returns near Holds space' taken' dropped := by
  obtain ⟨pending, hpend⟩ :
      ∃ l, l = returns.filter fun entry => decide (entry.1.len < threshold) := ⟨_, rfl⟩
  obtain ⟨eligible, heligible⟩ :
      ∃ l, l = returns.filter fun entry => !decide (entry.1.len < threshold) := ⟨_, rfl⟩
  have hsplit : returns.Perm (pending ++ eligible) := by
    rw [hpend, heligible]
    exact (filter_append_perm _ _).symm
  have hbegin : Decided threshold returns near Holds space [] (pending ++ eligible) :=
    ⟨hsplit, hstart, by simpa using forced_empty⟩
  have hlong : ∀ e ∈ eligible, threshold ≤ e.1.len := by
    intro e he
    rw [heligible] at he
    simpa using (mem_filter.mp he).2
  obtain ⟨space₁, taken₁, htrack, h₁⟩ := hbegin.trackEach hfollows hnodup hlong
  obtain ⟨dropped, space', taken', hoffer, h', hall⟩ :=
    h₁.offerAll hfollows hnodup (pending.length + 1) (Nat.lt_succ_self _)
  refine ⟨dropped, space', taken', ?_, h'.concluded hall⟩
  simp only [releaseEach, partition_eq_filter_filter, Function.comp_def]
  rw [← hpend, ← heligible, htrack, ok_bind, hoffer]

end

lemma release_single (hfollows : Follows [entry] near Holds) (hstart : Holds space [])
    (threshold : ℕ) :
    ∃ r space' taken', TrackedSpace.release space threshold entry.1 entry.2 = .ok (r, space') ∧
      Concluded threshold [entry] near Holds space' taken' (if r = .drop then [entry] else []) := by
  have hbegin : Decided threshold [entry] near Holds space [] ([] ++ entry :: []) :=
    decided_start hstart threshold [entry]
  obtain ⟨r, space', hrelease, hdrop, hkeep⟩ :=
    hbegin.release hfollows (nodup_singleton entry)
  by_cases hr : r = .drop
  · obtain ⟨rfl, hnot⟩ := hdrop hr
    refine ⟨r, space', [], hrelease, ?_⟩
    rw [if_pos hr]
    exact hbegin.concluded (by simpa using hnot)
  · refine ⟨r, space', [entry], hrelease, ?_⟩
    rw [if_neg hr]
    exact (hkeep hr).concluded (by simp)

end Hdf5Pure.Space.TrackedSpace
