import Mathlib

/-!
# Unstable sorting and binary search

A sort by a numeric key that may exchange elements of equal keys: it returns the elements in
ascending order of their keys, and nothing more is known of it. A binary search in ascending keys
returns some match, or where the key would stand. Code that calls them is written over any
`UnstableSort` and any `BinarySearch`.
-/

namespace Hdf5Pure

open List

/-- A sort whose order of equal keys is not specified. -/
structure UnstableSort where
  sortBy : {α : Type} → (α → ℕ) → List α → List α
  perm : ∀ {α : Type} (key : α → ℕ) (l : List α), (sortBy key l).Perm l
  sorted : ∀ {α : Type} (key : α → ℕ) (l : List α),
    (sortBy key l).Pairwise fun a b => key a ≤ key b

namespace UnstableSort

variable {α : Type}

/-- Insertion sort, which keeps elements of equal keys in place. -/
def insertion : UnstableSort where
  sortBy key l := l.insertionSort fun a b => key a ≤ key b
  perm key l := perm_insertionSort _ l
  sorted key l := by
    have : Std.Total fun a b => key a ≤ key b := ⟨fun a b => le_total (key a) (key b)⟩
    have : IsTrans _ fun a b => key a ≤ key b := ⟨fun _ _ _ hab hbc => hab.trans hbc⟩
    exact pairwise_insertionSort _ l

end UnstableSort

/-- A search in ascending keys that returns any one of equal matches. -/
structure BinarySearch where
  find : List ℕ → ℕ → Except ℕ ℕ
  found : ∀ {keys : List ℕ} {key i : ℕ}, keys.Pairwise (· ≤ ·) → find keys key = .ok i →
    keys[i]? = some key
  missing : ∀ {keys : List ℕ} {key i : ℕ}, keys.Pairwise (· ≤ ·) → find keys key = .error i →
    i ≤ keys.length ∧ (∀ k ∈ keys.take i, k < key) ∧ ∀ k ∈ keys.drop i, key < k

/-- The search ends at or just after the last key that is not greater. -/
lemma BinarySearch.find_between (search : BinarySearch) {l r : List ℕ} {k key : ℕ}
    (hl : ∀ x ∈ l, x < key) (hk : k ≤ key) (hr : ∀ x ∈ r, key < x)
    (hsort : (l ++ k :: r).Pairwise (· ≤ ·)) :
    search.find (l ++ k :: r) key = .ok l.length ∨
      search.find (l ++ k :: r) key = .error (l.length + 1) := by
  cases hfind : search.find (l ++ k :: r) key with
  | ok i =>
    have hi := search.found hsort hfind
    rcases lt_trichotomy i l.length with hlt | rfl | hgt
    · rw [getElem?_append_left hlt] at hi
      exact absurd (hl key (mem_of_getElem? hi)) (lt_irrefl key)
    · exact .inl rfl
    · obtain ⟨m, rfl⟩ : ∃ m, i = l.length + (m + 1) := ⟨i - l.length - 1, by omega⟩
      rw [getElem?_append_right (by omega), Nat.add_sub_cancel_left,
        getElem?_cons_succ] at hi
      exact absurd (hr key (mem_of_getElem? hi)) (lt_irrefl key)
  | error i =>
    obtain ⟨hlen, hbelow, habove⟩ := search.missing hsort hfind
    rcases lt_trichotomy i (l.length + 1) with hlt | rfl | hgt
    · rw [drop_append_of_le_length (by omega)] at habove
      exact absurd (habove k (by simp)) hk.not_gt
    · exact .inr rfl
    · cases r with
      | nil =>
        simp only [length_append, length_singleton] at hlen
        omega
      | cons x r =>
        obtain ⟨m, rfl⟩ : ∃ m, i = l.length + (m + 2) := ⟨i - l.length - 2, by omega⟩
        rw [take_length_add_append] at hbelow
        exact absurd (hbelow x (by simp)) (hr x mem_cons_self).not_gt

/-- The first match, or the number of smaller keys. -/
def firstMatch (key : ℕ) : List ℕ → Except ℕ ℕ
  | [] => .error 0
  | k :: keys =>
    if k = key then .ok 0
    else if key < k then .error 0
    else
      match firstMatch key keys with
      | .ok i => .ok (i + 1)
      | .error i => .error (i + 1)

lemma firstMatch_spec {key : ℕ} {keys : List ℕ} (h : keys.Pairwise (· ≤ ·)) :
    (∀ i, firstMatch key keys = .ok i → keys[i]? = some key) ∧
      ∀ i, firstMatch key keys = .error i →
        i ≤ keys.length ∧ (∀ k ∈ keys.take i, k < key) ∧ ∀ k ∈ keys.drop i, key < k := by
  induction keys with
  | nil => simp [firstMatch]
  | cons k keys ih =>
    obtain ⟨hk, hkeys⟩ := pairwise_cons.mp h
    unfold firstMatch
    by_cases heq : k = key
    · simp [heq]
    by_cases hlt : key < k
    · rw [if_neg heq, if_pos hlt]
      refine ⟨nofun, ?_⟩
      rintro _ ⟨⟩
      exact ⟨Nat.zero_le _, by simp, forall_mem_cons.mpr ⟨hlt, fun k' hk' => hlt.trans_le (hk k' hk')⟩⟩
    · rw [if_neg heq, if_neg hlt]
      cases hfind : firstMatch key keys with
      | ok i => simpa using (ih hkeys).1 i hfind
      | error i =>
        obtain ⟨hlen, hlow, hhigh⟩ := (ih hkeys).2 i hfind
        refine ⟨nofun, ?_⟩
        rintro _ ⟨⟩
        exact ⟨Nat.succ_le_succ hlen, forall_mem_cons.mpr ⟨by omega, hlow⟩, hhigh⟩

def BinarySearch.first : BinarySearch where
  find keys key := firstMatch key keys
  found hsorted h := (firstMatch_spec hsorted).1 _ h
  missing hsorted h := (firstMatch_spec hsorted).2 _ h

end Hdf5Pure
