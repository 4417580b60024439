import Mathlib

/-!
# Selections made by iterators

`minByKey` is the first element with the least key, as `Iterator::min_by_key` returns it.
-/

namespace Hdf5Pure

open List

variable {α κ : Type} [LinearOrder κ]

/-- The first element of a list whose key is least. -/
def minByKey (key : α → κ) : List α → Option α
  | [] => none
  | a :: l => some (l.foldl (fun best x => if key x < key best then x else best) a)

/-- The running minimum of `minByKey` is one of the elements seen and no larger than any. -/
private lemma foldl_min_spec (key : α → κ) (l : List α) (a : α) :
    let m := l.foldl (fun best x => if key x < key best then x else best) a
    m ∈ a :: l ∧ ∀ y ∈ a :: l, key m ≤ key y := by
  induction l generalizing a with
  | nil => simp
  | cons b l ih =>
    obtain ⟨hmem, hle⟩ := ih (if key b < key a then b else a)
    simp only [foldl_cons]
    have hnew : key (if key b < key a then b else a) ≤ key a ∧
        key (if key b < key a then b else a) ≤ key b := by
      split
      · rename_i h
        exact ⟨h.le, le_rfl⟩
      · rename_i h
        exact ⟨le_rfl, not_lt.mp h⟩
    refine ⟨?_, ?_⟩
    · rcases mem_cons.mp hmem with h | h
      · rw [h]
        split <;> simp
      · simp [h]
    · intro y hy
      have hhead := hle _ (mem_cons_self ..)
      rcases mem_cons.mp hy with rfl | hy
      · exact hhead.trans hnew.1
      · rcases mem_cons.mp hy with rfl | hy
        · exact hhead.trans hnew.2
        · exact hle y (mem_cons_of_mem _ hy)

/-- The selected element belongs to the list and has the least key. -/
lemma minByKey_spec {key : α → κ} {l : List α} {m : α} (h : minByKey key l = some m) :
    m ∈ l ∧ ∀ y ∈ l, key m ≤ key y := by
  cases l with
  | nil => cases h
  | cons a l =>
    cases h
    exact foldl_min_spec key l a

lemma minByKey_eq_none {key : α → κ} {l : List α} : minByKey key l = none ↔ l = [] := by
  cases l <;> simp [minByKey]

end Hdf5Pure
