import Hdf5Pure.Utils.Checked
import Hdf5Pure.Edit.ObjectGraph

/-!
# What discovery guarantees

The index map of a worklist and its admission order describe the same objects, each once. A run of
the loop leaves nothing to expand, and keeps whatever one expansion keeps.
-/

namespace Hdf5Pure.Edit

open List

variable {T L σ ε : Type}

variable {w : Worklist T L} {id : ObjectId} {links : List (HardLink L ObjectId)}

namespace Worklist

/-- The index map is the inverse of the admission order, within the limit, and links stay inside
the admitted objects. -/
structure Inv (w : Worklist T L) : Prop where
  indexed : ∀ (id : ObjectId) (i : ℕ), w.indices.get? id = some i ↔ w.admitted[i]? = some id
  indices_length : w.indices.entries.length = w.admitted.length
  admitted_le : w.admitted.length ≤ w.objectLimit
  expanded_le : w.expanded.length ≤ w.admitted.length
  targets : ∀ o ∈ w.expanded, ∀ l ∈ o.links, l.target < w.admitted.length

/-- `w'` has admitted further objects, and is `w` otherwise. -/
structure Grows (w w' : Worklist T L) : Prop where
  admitted : w.admitted <+: w'.admitted
  expanded : w'.expanded = w.expanded
  objectLimit : w'.objectLimit = w.objectLimit

lemma Grows.refl (w : Worklist T L) : w.Grows w := ⟨prefix_rfl, rfl, rfl⟩

lemma Grows.trans {w' w'' : Worklist T L} (h : w.Grows w') (h' : w'.Grows w'') : w.Grows w'' :=
  ⟨h.admitted.trans h'.admitted, h'.expanded.trans h.expanded,
    h'.objectLimit.trans h.objectLimit⟩

/-- An admitted object stays at its index. -/
lemma Grows.getElem? {w' : Worklist T L} (h : w.Grows w') {i : ℕ} (hi : w.admitted[i]? = some id)
    : w'.admitted[i]? = some id := by
  obtain ⟨new, hnew⟩ := h.admitted
  rw [← hnew, List.getElem?_append_left (List.getElem?_eq_some_iff.mp hi).1]
  exact hi

lemma inv_new (objectLimit : ℕ) : (new objectLimit : Worklist T L).Inv where
  indexed := by simp [new]
  indices_length := rfl
  admitted_le := Nat.zero_le _
  expanded_le := Nat.zero_le _
  targets := by simp [new]

private lemma Inv.push (h : w.Inv) (hnew : w.indices.get? id = none)
    (hlimit : w.indices.entries.length < w.objectLimit) :
    ({ w with
        indices := w.indices.insert id w.admitted.length
        admitted := w.admitted ++ [id] } : Worklist T L).Inv where
  indexed := by
    intro id' i
    show (w.indices.insert id w.admitted.length).get? id' = some i ↔
      (w.admitted ++ [id])[i]? = some id'
    have hfresh : w.admitted[i]? ≠ some id := by
      intro hi
      rw [(h.indexed id i).mpr hi] at hnew
      cases hnew
    rw [OrdMap.get?_insert_eq_some, h.indexed, getElem?_append]
    by_cases hlt : i < w.admitted.length
    · rw [if_pos hlt]
      constructor
      · rintro (⟨-, rfl⟩ | ⟨-, hi⟩)
        · omega
        · exact hi
      · intro hi
        refine .inr ⟨?_, hi⟩
        rintro rfl
        exact hfresh hi
    · rw [if_neg hlt, getElem?_eq_none (not_lt.mp hlt), getElem?_singleton]
      split_ifs with heq
      · simp [show i = w.admitted.length by omega, eq_comm]
      · simp [show i ≠ w.admitted.length by omega]
  indices_length := by
    simp [(OrdMap.perm_insert _ hnew).length_eq, h.indices_length]
  admitted_le := by
    have := h.indices_length
    simp only [length_append, length_singleton]
    omega
  expanded_le := by
    have := h.expanded_le
    simp only [length_append, length_singleton]
    omega
  targets := by
    intro o ho l hl
    rw [length_append]
    exact Nat.lt_add_right _ (h.targets o ho l hl)

lemma admitObject_spec {w' : Worklist T L} {i : ObjectIndex} (h : w.Inv)
    (hr : (w.admitObject id : Except (TraversalError ε) _) = .ok (i, w')) :
    w'.Inv ∧ w.Grows w' ∧ w'.admitted[i]? = some id ∧
      ∀ x ∈ w'.admitted, x ∈ w.admitted ∨ x = id := by
  unfold admitObject at hr
  cases hget : w.indices.get? id with
  | some index =>
    rw [hget] at hr
    cases hr
    exact ⟨h, .refl w, (h.indexed _ _).mp hget, fun _ => .inl⟩
  | none =>
    rw [hget] at hr
    obtain ⟨hlimit, hr⟩ := ite_error_eq_ok.mp hr
    cases hr
    exact ⟨h.push hget (by omega), ⟨prefix_append _ _, rfl, rfl⟩, by simp, by simp⟩

def Stores (w : Worklist T L) (links : List (HardLink L ObjectId))
    (stored : List (HardLink L ObjectIndex)) : Prop :=
  List.Forall₂ (fun l s => s.label = l.label ∧ w.admitted[s.target]? = some l.target) links stored

/-- Admitted links are stored with their targets, and admit nothing else. -/
lemma admitLinks_spec {w w' : Worklist T L} {stored : List (HardLink L ObjectIndex)} (h : w.Inv)
    (hr : (w.admitLinks links : Except (TraversalError ε) _) = .ok (stored, w')) :
    w'.Inv ∧ w.Grows w' ∧ w'.Stores links stored ∧
      ∀ x ∈ w'.admitted, x ∈ w.admitted ∨ ∃ l ∈ links, l.target = x := by
  induction links generalizing w w' stored with
  | nil =>
    cases hr
    exact ⟨h, .refl w, .nil, fun _ => .inl⟩
  | cons link links ih =>
    obtain ⟨⟨i, w₁⟩, hadm, hr⟩ := bind_eq_ok.mp hr
    obtain ⟨h₁, hg₁, hi, hhead⟩ := admitObject_spec h hadm
    obtain ⟨⟨rest, w₂⟩, hlinks, hr⟩ := bind_eq_ok.mp hr
    obtain ⟨h₂, hg₂, hrest, htail⟩ := ih h₁ hlinks
    cases hr
    refine ⟨h₂, hg₁.trans hg₂, .cons ⟨rfl, hg₂.getElem? hi⟩ hrest, fun x hx => ?_⟩
    rcases htail x hx with hx | ⟨l, hl, htgt⟩
    · exact (hhead x hx).imp_right fun heq => ⟨link, mem_cons_self, heq.symm⟩
    · exact .inr ⟨l, mem_cons_of_mem _ hl, htgt⟩

lemma Stores.target_lt {stored : List (HardLink L ObjectIndex)} (h : w.Stores links stored) :
    ∀ s ∈ stored, s.target < w.admitted.length := by
  induction h with
  | nil => simp
  | cons hhead _ ih =>
    intro s hs
    rcases List.mem_cons.mp hs with rfl | hs
    · exact (List.getElem?_eq_some_iff.mp hhead.2).1
    · exact ih s hs

end Worklist

namespace ObjectGraph

variable {budget : TraversalBudget} {expand : ObjectId → σ → Except ε (Expansion T L × σ)}

/-- What one iteration did: it expanded `id` and stored the links of the expansion. -/
structure Expanded (expand : ObjectId → σ → Except ε (Expansion T L × σ)) (id : ObjectId)
    (d d' : Discovery T L σ) (expansion : Expansion T L) (stored : List (HardLink L ObjectIndex)) :
    Prop where
  expand_eq : expand id d.state = .ok (expansion, d'.state)
  admitted : d.worklist.admitted <+: d'.worklist.admitted
  targets : ∀ x ∈ d'.worklist.admitted,
    x ∈ d.worklist.admitted ∨ ∃ l ∈ expansion.links, l.target = x
  expanded : d'.worklist.expanded = d.worklist.expanded ++ [⟨expansion.value, stored⟩]
  objectLimit : d'.worklist.objectLimit = d.worklist.objectLimit
  stores : d'.worklist.Stores expansion.links stored

lemma discoverStep_spec {d d' : Discovery T L σ} (h : d.worklist.Inv)
    (hnext : d.worklist.next = some id) (hr : discoverStep budget expand id d = .ok d') :
    d'.worklist.Inv ∧ ∃ expansion stored, Expanded expand id d d' expansion stored := by
  unfold discoverStep at hr
  cases hexpand : expand id d.state with
  | error e => rw [hexpand] at hr; cases hr
  | ok r =>
    obtain ⟨expansion, state⟩ := r
    rw [hexpand] at hr
    obtain ⟨-, hr⟩ := ite_error_eq_ok.mp hr
    obtain ⟨⟨stored, w⟩, hadm, hr⟩ := bind_eq_ok.mp hr
    obtain ⟨hw, hg, hs, htargets⟩ := Worklist.admitLinks_spec h hadm
    cases hr
    -- the expanded object was admitted but not expanded before
    have hlt : d.worklist.expanded.length < d.worklist.admitted.length :=
      (List.getElem?_eq_some_iff.mp hnext).1
    have hlen := hg.admitted.length_le
    refine ⟨{ hw with expanded_le := ?_, targets := ?_ }, expansion, stored, ?_⟩
    · simp only [hg.expanded, length_append, length_singleton]
      omega
    · intro o ho l hl
      rcases mem_append.mp ho with ho | ho
      · exact hw.targets o ho l hl
      · rw [mem_singleton] at ho
        subst ho
        exact hs.target_lt l hl
    · exact ⟨hexpand, hg.admitted, htargets, by rw [hg.expanded], hg.objectLimit, hs⟩

/-- **Induction over a discovery.** What every expansion keeps holds at the end, and enough
iterations leave nothing to expand. -/
theorem discoverLoop_induct {P : Discovery T L σ → Prop}
    (hstep : ∀ id d d' expansion stored, d.worklist.Inv → P d → d.worklist.next = some id →
      Expanded expand id d d' expansion stored → P d') :
    ∀ (fuel : ℕ) {d d' : Discovery T L σ}, d.worklist.Inv → P d →
      d.worklist.objectLimit ≤ fuel + d.worklist.expanded.length →
      discoverLoop budget expand fuel d = .ok d' →
      d'.worklist.Inv ∧ P d' ∧ d'.worklist.next = none := by
  intro fuel
  induction fuel with
  | zero =>
    intro d d' h hP hfuel hr
    cases hr
    refine ⟨h, hP, getElem?_eq_none ?_⟩
    have := h.admitted_le
    omega
  | succ fuel ih =>
    intro d d' h hP hfuel hr
    unfold discoverLoop at hr
    cases hnext : d.worklist.next with
    | none =>
      rw [hnext] at hr
      cases hr
      exact ⟨h, hP, hnext⟩
    | some id =>
      rw [hnext] at hr
      obtain ⟨d₁, hd, hr⟩ := bind_eq_ok.mp hr
      obtain ⟨h₁, expansion, stored, hexp⟩ := discoverStep_spec h hnext hd
      apply ih h₁ (hstep id d d₁ expansion stored h hP hnext hexp) _ hr
      rw [hexp.objectLimit, hexp.expanded, length_append, length_singleton]
      omega

end ObjectGraph

end Hdf5Pure.Edit
