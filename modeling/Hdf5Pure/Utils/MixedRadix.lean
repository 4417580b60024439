import Mathlib

/-!
# Mixed-radix numbers

The cells of a grid, numbered with the last dimension fastest. The first radix enters no weight, so that
a number has digits also where the first dimension has no bound.
-/

namespace Hdf5Pure.MixedRadix

open List

/-- Every digit is below its radix. -/
def Within (digits radices : List ℕ) : Prop := List.Forall₂ (· < ·) digits radices

/-- The number with the given digits. -/
def number : List ℕ → List ℕ → ℕ
  | _ :: radices, d :: digits => d * radices.prod + number radices digits
  | _, _ => 0

def digits : List ℕ → ℕ → List ℕ
  | [], _ => []
  | _ :: radices, k => k / radices.prod :: digits radices (k % radices.prod)

/-- The cells of a grid in row-major order. -/
def cells : List ℕ → List (List ℕ)
  | [] => [[]]
  | r :: radices => (range r).flatMap fun d => (cells radices).map (d :: ·)

variable {ds rs : List ℕ}

lemma Within.prod_pos (h : Within ds rs) : 0 < rs.prod := by
  induction h with
  | nil => exact Nat.one_pos
  | cons hd _ ih =>
    exact Nat.mul_pos (Nat.zero_lt_of_lt hd) ih

lemma number_lt (h : Within ds rs) : number rs ds < rs.prod := by
  induction h with
  | nil => exact Nat.one_pos
  | @cons d r ds rs hd _ ih =>
    calc number (r :: rs) (d :: ds) < d * rs.prod + rs.prod := Nat.add_lt_add_left ih _
      _ = (d + 1) * rs.prod := by rw [Nat.add_mul, Nat.one_mul]
      _ ≤ (r :: rs).prod := by
        exact Nat.mul_le_mul_right _ hd

lemma digits_number (h : Within ds rs) : digits rs (number rs ds) = ds := by
  induction h with
  | nil => rfl
  | @cons d r ds rs _ hrest ih =>
    have hlt := number_lt hrest
    rw [number, digits, Nat.add_comm, Nat.add_mul_div_right _ _ (Within.prod_pos hrest), Nat.div_eq_of_lt hlt,
      Nat.add_mul_mod_self_right, Nat.mod_eq_of_lt hlt, ih, Nat.zero_add]

/-! ## Cells -/

lemma mem_cells : ds ∈ cells rs ↔ Within ds rs := by
  induction rs generalizing ds with
  | nil => simp [cells, Within]
  | cons r rs ih =>
    simp only [cells, mem_flatMap, mem_range, mem_map, ih]
    constructor
    · rintro ⟨d, hd, ds, hds, rfl⟩
      exact .cons hd hds
    · intro h
      cases h with
      | cons hd hds => exact ⟨_, hd, _, hds, rfl⟩

/-- The cells come in the order of their numbers. -/
lemma map_number_cells (rs : List ℕ) : (cells rs).map (number rs) = range rs.prod := by
  induction rs with
  | nil => rfl
  | cons r rs ih =>
    have hblock : ∀ d, ((cells rs).map (d :: ·)).map (number (r :: rs)) =
        (range rs.prod).map (d * rs.prod + ·) := by
      intro d
      rw [← ih, map_map, map_map]
      rfl
    rw [cells, map_flatMap, prod_cons]
    simp only [hblock]
    clear ih hblock
    -- one block of numbers for each first digit
    induction r with
    | zero => rw [Nat.zero_mul]; rfl
    | succ r ih =>
      rw [range_succ, flatMap_append, ih, flatMap_singleton, Nat.add_mul, Nat.one_mul,
        range_add]

lemma length_cells (rs : List ℕ) : (cells rs).length = rs.prod := by
  rw [← length_map (number rs), map_number_cells, length_range]

lemma cells_eq_map_digits (rs : List ℕ) : cells rs = (range rs.prod).map (digits rs) := by
  rw [← map_number_cells, map_map]
  conv_lhs => rw [← map_id (cells rs)]
  apply map_congr_left
  intro ds hds
  exact (digits_number (mem_cells.mp hds)).symm

/-- A sum over the cells of products of one factor for each dimension. -/
lemma sum_cells {β : Type} (f : β → ℕ → ℕ) : ∀ (bs : List β) (rs : List ℕ), bs.length = rs.length →
    ((cells rs).map fun ds => (zipWith f bs ds).prod).sum =
      (zipWith (fun b r => ((range r).map (f b)).sum) bs rs).prod
  | [], [], _ => rfl
  | b :: bs, r :: rs, h => by
    have ih := sum_cells f bs rs (Nat.succ.inj h)
    rw [cells, map_flatMap, zipWith_cons_cons, prod_cons, ← ih, flatMap_def,
      sum_flatten, map_map, ← sum_map_mul_right]
    congr 1
    apply map_congr_left
    intro d _
    rw [Function.comp_apply, map_map, ← sum_map_mul_left]
    rfl

end Hdf5Pure.MixedRadix
