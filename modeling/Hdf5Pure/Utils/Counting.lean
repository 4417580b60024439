import Mathlib

/-!
# Positions and correspondence in lists

An element that occurs at most once in a list, or in a list of lists, occurs at one position. Lists
in step have a partner for every element.
-/

namespace Hdf5Pure

open List

variable {α : Type} {q : α → Bool}

lemma one_le_countP {l : List α} {p : ℕ} {a : α} (ha : l[p]? = some a) (hq : q a) :
    1 ≤ l.countP q :=
  countP_pos_iff.mpr ⟨a, mem_of_getElem? ha, hq⟩

lemma countP_position_unique {l : List α} : ∀ {p p' : ℕ} {a a' : α}, l.countP q ≤ 1 →
    l[p]? = some a → q a → l[p']? = some a' → q a' → p = p' := by
  induction l with
  | nil => simp
  | cons x l ih =>
    intro p p' a a' h ha hq ha' hq'
    rw [countP_cons] at h
    cases p with
    | zero =>
      cases p' with
      | zero => rfl
      | succ p' =>
        -- the head is counted, so nothing of the tail is
        rw [getElem?_cons_zero, Option.some_inj] at ha
        rw [ha, if_pos hq] at h
        have := one_le_countP (by simpa using ha') hq'
        omega
    | succ p =>
      rw [getElem?_cons_succ] at ha
      cases p' with
      | zero =>
        rw [getElem?_cons_zero, Option.some_inj] at ha'
        rw [ha', if_pos hq'] at h
        have := one_le_countP ha hq
        omega
      | succ p' =>
        rw [ih (by omega) ha hq ha' hq']

lemma eq_of_countP_le_one {l : List α} {a a' : α} (h : l.countP q ≤ 1) (ha : a ∈ l) (hq : q a)
    (ha' : a' ∈ l) (hq' : q a') : a = a' := by
  obtain ⟨p, hp⟩ := getElem?_of_mem ha
  obtain ⟨p', hp'⟩ := getElem?_of_mem ha'
  rw [countP_position_unique h hp hq hp' hq'] at hp
  exact Option.some_inj.mp (hp.symm.trans hp')

/-- The lists that hold a counted element are at most as many as the counted elements. -/
lemma countP_nonempty_le_countP_flatten (ls : List (List α)) :
    ls.countP (fun l => decide (0 < l.countP q)) ≤ ls.flatten.countP q := by
  induction ls with
  | nil => simp
  | cons l ls ih =>
    rw [flatten_cons, countP_append, countP_cons]
    split_ifs with hl
    · have := of_decide_eq_true hl
      omega
    · omega

lemma countP_flatten_position_unique {ls : List (List α)} {i i' p p' : ℕ} {l l' : List α}
    {a a' : α} (h : ls.flatten.countP q ≤ 1) (hl : ls[i]? = some l) (ha : l[p]? = some a) (hq : q a)
    (hl' : ls[i']? = some l') (ha' : l'[p']? = some a') (hq' : q a') : i = i' ∧ p = p' := by
  have hi : i = i' := by
    apply countP_position_unique ((countP_nonempty_le_countP_flatten ls).trans h) hl _ hl'
    · exact decide_eq_true (one_le_countP ha' hq')
    · exact decide_eq_true (one_le_countP ha hq)
  subst hi
  have hsame : l = l' := Option.some_inj.mp (hl.symm.trans hl')
  subst hsame
  have hle : l.countP q ≤ ls.flatten.countP q :=
    (sublist_flatten_of_mem (mem_of_getElem? hl)).countP_le
  exact ⟨rfl, countP_position_unique (hle.trans h) ha hq ha' hq'⟩

/-! ## Lists in step -/

section

variable {β : Type} {R : α → β → Prop} {l : List α} {l' : List β}

lemma exists_left_of_forall₂ (h : List.Forall₂ R l l') : ∀ b ∈ l', ∃ a ∈ l, R a b := by
  induction h with
  | nil => simp
  | cons hhead _ ih =>
    intro b hb
    rcases mem_cons.mp hb with rfl | hb
    · exact ⟨_, mem_cons_self, hhead⟩
    · obtain ⟨a, ha, hab⟩ := ih b hb
      exact ⟨a, mem_cons_of_mem _ ha, hab⟩

end

end Hdf5Pure
