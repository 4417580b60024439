import Mathlib

/-!
# Slices and patches of lists

A patch overwrites the elements of a list from a position on, and extends the list if it reaches past
the end. Both operations are described by what stands at each index.
-/

namespace Hdf5Pure

open List

variable {α : Type}

/-- The `n` elements from `start` on, fewer at the end of the list. -/
def slice (l : List α) (start n : ℕ) : List α := (l.drop start).take n

/-- The list with `xs` from `start` on. -/
def patch (l : List α) (start : ℕ) (xs : List α) : List α :=
  l.take start ++ xs ++ l.drop (start + xs.length)

lemma getElem?_slice (l : List α) (start n i : ℕ) :
    (slice l start n)[i]? = if i < n then l[start + i]? else none := by
  unfold slice
  rw [getElem?_take]
  simp

variable {l : List α} {start : ℕ}

lemma length_slice {n : ℕ} (h : start + n ≤ l.length) : (slice l start n).length = n := by
  simp only [slice, length_take, length_drop]
  omega

@[simp] lemma slice_zero (l : List α) (start : ℕ) : slice l start 0 = [] := by
  simp [slice]

lemma slice_append (l : List α) (start n m : ℕ) :
    slice l start n ++ slice l (start + n) m = slice l start (n + m) := by
  unfold slice
  rw [take_add, drop_drop]

lemma slice_slice (l : List α) {n a m : ℕ} (h : a + m ≤ n) :
    slice (slice l start n) a m = slice l (start + a) m := by
  unfold slice
  rw [drop_take, take_take, drop_drop, Nat.min_eq_left (by omega)]

lemma length_patch (h : start ≤ l.length) (xs : List α) :
    (patch l start xs).length = max l.length (start + xs.length) := by
  simp only [patch, length_append, length_take, length_drop]
  omega

lemma getElem?_patch (h : start ≤ l.length) (xs : List α) (i : ℕ) :
    (patch l start xs)[i]? =
      if start ≤ i ∧ i < start + xs.length then xs[i - start]? else l[i]? := by
  have htake : (l.take start).length = start := by
    rw [length_take]
    omega
  unfold patch
  by_cases hlow : i < start
  · rw [if_neg (by omega), append_assoc, getElem?_append_left (by omega), getElem?_take_of_lt hlow]
  by_cases hhigh : i < start + xs.length
  · rw [if_pos (by omega), getElem?_append_left (by simp [htake, hhigh]),
      getElem?_append_right (by omega), htake]
  · have hlen : (l.take start ++ xs).length = start + xs.length := by
      rw [length_append, htake]
    rw [if_neg (by omega), getElem?_append_right (by omega), hlen, getElem?_drop]
    congr 1
    omega

lemma patch_nil (start : ℕ) : patch l start [] = l := by
  simp [patch]

lemma patch_append (h : start ≤ l.length) (xs ys : List α) :
    patch (patch l start xs) (start + xs.length) ys = patch l start (xs ++ ys) := by
  have hmid : start + xs.length ≤ (patch l start xs).length := by
    rw [length_patch h]
    exact le_max_right _ _
  apply ext_getElem?
  intro i
  rw [getElem?_patch hmid, getElem?_patch h, getElem?_patch h, length_append]
  by_cases hlow : start ≤ i ∧ i < start + xs.length
  · rw [if_neg (by omega), if_pos hlow, if_pos (by omega), getElem?_append_left (by omega)]
  · by_cases hhigh : start + xs.length ≤ i ∧ i < start + xs.length + ys.length
    · rw [if_pos hhigh, if_pos (by omega), getElem?_append_right (by omega)]
      congr 1
      omega
    · rw [if_neg hhigh, if_neg hlow, if_neg (by omega)]

/-- Patching the elements of a list into one that differs nowhere else gives the list. -/
lemma patch_slice_of_outside {l' : List α} {n : ℕ} (hlen : l'.length = l.length)
    (h : start + n ≤ l.length) (hout : ∀ p, p < start ∨ start + n ≤ p → l'[p]? = l[p]?) :
    patch l' start (slice l start n) = l := by
  apply ext_getElem?
  intro i
  rw [getElem?_patch (by omega), length_slice h]
  by_cases hin : start ≤ i ∧ i < start + n
  · rw [if_pos hin, getElem?_slice, if_pos (by omega)]
    congr 1
    omega
  · rw [if_neg hin, hout i (by omega)]

lemma slice_congr {l' : List α} {n : ℕ}
    (h : ∀ p, start ≤ p → p < start + n → l[p]? = l'[p]?) : slice l start n = slice l' start n := by
  apply ext_getElem?
  intro i
  rw [getElem?_slice, getElem?_slice]
  by_cases hi : i < n
  · rw [if_pos hi, if_pos hi, h _ (by omega) (by omega)]
  · rw [if_neg hi, if_neg hi]

lemma patch_end (l xs : List α) : patch l l.length xs = l ++ xs := by
  simp [patch]

end Hdf5Pure
