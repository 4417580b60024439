import Mathlib

/-!
# Loops that write a buffer

A loop that assigns positions of a buffer is a list of writes. If the value written is a function of
the position, the buffer has that value wherever a write went, and its old contents elsewhere.
-/

namespace Hdf5Pure

open List

variable {α : Type}

def performWrites (writes : List (ℕ × α)) (buffer : List α) : List α :=
  writes.foldl (fun buffer w => buffer.set w.1 w.2) buffer

@[simp] lemma performWrites_nil (buffer : List α) : performWrites [] buffer = buffer := rfl

lemma performWrites_cons (w : ℕ × α) (ws : List (ℕ × α)) (buffer : List α) :
    performWrites (w :: ws) buffer = performWrites ws (buffer.set w.1 w.2) := rfl

@[simp] lemma length_performWrites (writes : List (ℕ × α)) (buffer : List α) :
    (performWrites writes buffer).length = buffer.length := by
  induction writes generalizing buffer with
  | nil => rfl
  | cons w ws ih => rw [performWrites_cons, ih, length_set]

/-- The contents of the buffer after writes whose values depend on the position only. -/
lemma getElem?_performWrites {value : ℕ → α} {writes : List (ℕ × α)}
    (hvalue : ∀ w ∈ writes, w.2 = value w.1) (buffer : List α) {k : ℕ} (hk : k < buffer.length) :
    (performWrites writes buffer)[k]? =
      if k ∈ writes.map Prod.fst then some (value k) else buffer[k]? := by
  induction writes generalizing buffer with
  | nil => simp
  | cons w ws ih =>
    have hw := hvalue w mem_cons_self
    rw [performWrites_cons, ih (fun v hv => hvalue v (mem_cons_of_mem _ hv)) _
      (by rwa [length_set]), getElem?_set]
    by_cases hmem : k ∈ ws.map Prod.fst
    · simp [hmem]
    · by_cases heq : k = w.1
      · subst heq
        simp [hmem, hw, hk]
      · simp [hmem, heq, Ne.symm heq]

/-- Writes of one function of the position that reach every position determine the buffer. -/
lemma performWrites_eq (value : ℕ → α) {writes : List (ℕ × α)}
    (hvalue : ∀ w ∈ writes, w.2 = value w.1) {buffer : List α}
    (hall : ∀ k < buffer.length, k ∈ writes.map Prod.fst ∨ buffer[k]? = some (value k)) :
    performWrites writes buffer = (range buffer.length).map value := by
  apply ext_getElem?
  intro k
  by_cases hk : k < buffer.length
  · rw [getElem?_performWrites hvalue buffer hk, getElem?_map, getElem?_range hk, Option.map_some]
    split_ifs with hmem
    · rfl
    · exact (hall k hk).resolve_left hmem
  · rw [getElem?_eq_none (by rw [length_performWrites]; omega),
      getElem?_eq_none (by rw [length_map, length_range]; omega)]

end Hdf5Pure
