import Hdf5Pure.Utils.OrdMap
import Hdf5Pure.Utils.Patch

/-!
# Maps of runs

A map from start addresses to runs of elements denotes a partial function on addresses. While the
runs are not empty and do not touch, every address lies in one run at most.
-/

namespace Hdf5Pure

open List

/-- Runs of elements by the address of their first element. -/
abbrev RunMap (α : Type) := OrdMap ℕ (List α)

namespace RunMap

variable {α : Type} {m : RunMap α}

/-- The run at some address holds `x` at `a`. -/
def Holds (m : RunMap α) (a : ℕ) (x : α) : Prop :=
  ∃ k v, m.get? k = some v ∧ k ≤ a ∧ v[a - k]? = some x

/-- The runs are not empty, and there is an address between any two of them. -/
structure Apart (m : RunMap α) : Prop where
  nonempty : ∀ {k v}, m.get? k = some v → v ≠ []
  apart : ∀ {k v k' v'}, m.get? k = some v → m.get? k' = some v' → k < k' → k + v.length < k'

/-- The number of elements of all runs. -/
def total (m : RunMap α) : ℕ := m.weight length

lemma apart_empty : Apart (OrdMap.empty : RunMap α) := by
  constructor
  · intro k v h
    cases h
  · intro k v k' v' h
    cases h

lemma not_holds_empty (a : ℕ) (x : α) : ¬ Holds OrdMap.empty a x := by
  rintro ⟨k, v, h, -⟩
  cases h

variable {k : ℕ} {v : List α} {m' : RunMap α}

lemma Apart.run_unique (h : m.Apart) {k' a : ℕ} {v' : List α} (hk : m.get? k = some v)
    (hk' : m.get? k' = some v') (hle : k ≤ a) (hlt : a < k + v.length) (hle' : k' ≤ a)
    (hlt' : a < k' + v'.length) : k = k' := by
  rcases lt_trichotomy k k' with hlow | heq | hhigh
  · have hgap := h.apart hk hk' hlow
    omega
  · exact heq
  · have hgap := h.apart hk' hk hhigh
    omega

lemma lt_of_getElem? {a : ℕ} {x : α} (hle : k ≤ a) (h : v[a - k]? = some x) : a < k + v.length := by
  have hlt := (List.getElem?_eq_some_iff.mp h).1
  omega

lemma exists_holds {a : ℕ} (hk : m.get? k = some v) (hle : k ≤ a)
    (hlt : a < k + v.length) : ∃ x, m.Holds a x := by
  have hbound : a - k < v.length := by omega
  exact ⟨v[a - k], k, v, hk, hle, getElem?_eq_getElem hbound⟩

/-! ## Sizes -/

@[simp] lemma total_empty : total (OrdMap.empty : RunMap α) = 0 := rfl

lemma total_insert (v : List α) (h : m.get? k = none) :
    total (m.insert k v) = m.total + v.length := OrdMap.weight_insert v h

lemma total_remove (h : m.get? k = some v) :
    m.total = total (m.remove k) + v.length := OrdMap.weight_remove h

lemma total_insert_present (h : m.get? k = some v) (v' : List α) :
    total (m.insert k v') + v.length = m.total + v'.length := OrdMap.weight_insert_present h v'

/-! ## Merging -/

/-- The runs at the keys in `absorbed` are replaced by one run at `lo`. -/
structure Replaces (m m' : RunMap α) (absorbed : List ℕ) (lo : ℕ) (merged : List α) : Prop where
  replaced : m'.get? lo = some merged
  removed : ∀ k ∈ absorbed, k ≠ lo → m'.get? k = none
  kept : ∀ k, k ∉ absorbed → k ≠ lo → m'.get? k = m.get? k
  nonempty : merged ≠ []
  within : ∀ k ∈ absorbed, ∀ v, m.get? k = some v → lo ≤ k ∧ k + v.length ≤ lo + merged.length
  outside : ∀ k, k ∉ absorbed → ∀ v, m.get? k = some v →
    k + v.length < lo ∨ lo + merged.length < k

variable {merged : List α}

lemma Replaces.mem_cases {absorbed : List ℕ} {lo : ℕ} (h : m.Replaces m' absorbed lo merged)
    (hk : m'.get? k = some v) :
    (k = lo ∧ v = merged) ∨ (k ∉ absorbed ∧ k ≠ lo ∧ m.get? k = some v) := by
  by_cases hlo : k = lo
  · subst hlo
    rw [h.replaced, Option.some_inj] at hk
    exact .inl ⟨rfl, hk.symm⟩
  · by_cases habs : k ∈ absorbed
    · rw [h.removed k habs hlo] at hk
      cases hk
    · rw [h.kept k habs hlo] at hk
      exact .inr ⟨habs, hlo, hk⟩

lemma Replaces.apart {absorbed : List ℕ} {lo : ℕ} (h : m.Replaces m' absorbed lo merged)
    (hm : m.Apart) : m'.Apart := by
  constructor
  · intro k v hk
    rcases h.mem_cases hk with ⟨-, rfl⟩ | ⟨-, -, hold⟩
    · exact h.nonempty
    · exact hm.nonempty hold
  · intro k v k' v' hk hk' hlt
    rcases h.mem_cases hk with ⟨rfl, rfl⟩ | ⟨habs, -, hold⟩
    · rcases h.mem_cases hk' with ⟨rfl, rfl⟩ | ⟨habs', -, hold'⟩
      · omega
      · have hout := h.outside k' habs' v' hold'
        omega
    · rcases h.mem_cases hk' with ⟨rfl, rfl⟩ | ⟨habs', -, hold'⟩
      · have hout := h.outside k habs v hold
        omega
      · exact hm.apart hold hold' hlt

/-- **A merge overrides the addresses of the new run.** At every other address the merged run has
what the absorbed runs have. -/
theorem Replaces.holds {absorbed : List ℕ} {lo : ℕ} (h : m.Replaces m' absorbed lo merged)
    (hm : m.Apart) {offset : ℕ} {xs : List α} (hlo : lo ≤ offset)
    (hhi : offset + xs.length ≤ lo + merged.length)
    (hnew : ∀ a, offset ≤ a → a < offset + xs.length → merged[a - lo]? = xs[a - offset]?)
    (hold : ∀ a, lo ≤ a → a < lo + merged.length → ¬ (offset ≤ a ∧ a < offset + xs.length) →
      ∃ k ∈ absorbed, ∃ v, m.get? k = some v ∧ k ≤ a ∧ a < k + v.length ∧
        merged[a - lo]? = v[a - k]?) (a : ℕ) (x : α) :
    m'.Holds a x ↔
      if offset ≤ a ∧ a < offset + xs.length then xs[a - offset]? = some x else m.Holds a x := by
  by_cases hin : offset ≤ a ∧ a < offset + xs.length
  · rw [if_pos hin, ← hnew a hin.1 hin.2]
    constructor
    · rintro ⟨k, v, hk, hle, hget⟩
      rcases h.mem_cases hk with ⟨rfl, rfl⟩ | ⟨habs, -, hk⟩
      · exact hget
      · have hlt := lt_of_getElem? hle hget
        have hout := h.outside k habs v hk
        omega
    · intro hget
      exact ⟨lo, merged, h.replaced, by omega, hget⟩
  · rw [if_neg hin]
    by_cases hmerged : lo ≤ a ∧ a < lo + merged.length
    · obtain ⟨k, -, v, hk, hle, hlt, hget⟩ := hold a hmerged.1 hmerged.2 hin
      constructor
      · rintro ⟨k', v', hk', hle', hget'⟩
        rcases h.mem_cases hk' with ⟨rfl, rfl⟩ | ⟨habs', -, hk'⟩
        · exact ⟨k, v, hk, hle, hget ▸ hget'⟩
        · have hlt' := lt_of_getElem? hle' hget'
          have hout := h.outside k' habs' v' hk'
          omega
      · intro hx
        have hmergedget : merged[a - lo]? = some x := by
          rw [hget]
          obtain ⟨k', v', hk', hle', hget'⟩ := hx
          obtain rfl := hm.run_unique hk hk' hle hlt hle' (lt_of_getElem? hle' hget')
          rw [hk, Option.some_inj] at hk'
          exact hk' ▸ hget'
        exact ⟨lo, merged, h.replaced, hmerged.1, hmergedget⟩
    · -- neither the new run nor an absorbed one reaches `a`
      constructor
      · rintro ⟨k, v, hk, hle, hget⟩
        have hlt := lt_of_getElem? hle hget
        rcases h.mem_cases hk with ⟨rfl, rfl⟩ | ⟨-, -, hk⟩
        · omega
        · exact ⟨k, v, hk, hle, hget⟩
      · rintro ⟨k, v, hk, hle, hget⟩
        have hlt := lt_of_getElem? hle hget
        have habs : k ∉ absorbed := by
          intro habs
          have hwithin := h.within k habs v hk
          omega
        have hne : k ≠ lo := by
          rintro rfl
          have hout := h.outside k habs v hk
          omega
        exact ⟨k, v, (h.kept k habs hne).trans hk, hle, hget⟩

lemma replaces_insert (hk : m.get? k = some v) (hne : merged ≠ [])
    (hlen : v.length ≤ merged.length) (hout : ∀ k' v', m.get? k' = some v' → k' ≠ k →
      k' + v'.length < k ∨ k + merged.length < k') :
    m.Replaces (m.insert k merged) [k] k merged where
  replaced := by rw [OrdMap.get?_insert, if_pos rfl]
  removed := fun k' hk' hne => absurd (mem_singleton.mp hk') hne
  kept := fun k' _ hne => by rw [OrdMap.get?_insert, if_neg hne]
  nonempty := hne
  within := by
    intro k' hk' v' hv'
    obtain rfl := mem_singleton.mp hk'
    rw [hk, Option.some_inj] at hv'
    subst hv'
    omega
  outside := fun k' hk' v' hv' => hout k' v' hv' (by simpa using hk')

lemma Apart.outside (h : m.Apart) {k' : ℕ} {v' : List α} (hk : m.get? k = some v)
    (hk' : m.get? k' = some v') (hne : k' ≠ k) : k' + v'.length < k ∨ k + v.length < k' := by
  rcases lt_or_gt_of_ne hne with hlt | hgt
  · exact .inl (h.apart hk' hk hlt)
  · exact .inr (h.apart hk hk' hgt)

/-! ## Cutting off -/

/-- The runs up to `len` only. -/
def Cut (m m' : RunMap α) (len : ℕ) : Prop :=
  ∀ k, m'.get? k = if len ≤ k then none else (m.get? k).map (take (len - k))

lemma Cut.get?_eq_some {len : ℕ} (h : m.Cut m' len) {v' : List α} :
    m'.get? k = some v' ↔ k < len ∧ ∃ v, m.get? k = some v ∧ v' = v.take (len - k) := by
  rw [h k]
  by_cases hk : len ≤ k
  · rw [if_pos hk]
    constructor
    · intro h
      cases h
    · intro h
      omega
  · rw [if_neg hk, Option.map_eq_some_iff]
    constructor
    · rintro ⟨v, hv, rfl⟩
      exact ⟨by omega, v, hv, rfl⟩
    · rintro ⟨-, v, hv, rfl⟩
      exact ⟨v, hv, rfl⟩

lemma Cut.apart {len : ℕ} (h : m.Cut m' len) (hm : m.Apart) : m'.Apart := by
  constructor
  · intro k v' hk
    obtain ⟨hlt, v, hv, rfl⟩ := h.get?_eq_some.mp hk
    have hpos := length_pos_iff.mpr (hm.nonempty hv)
    apply length_pos_iff.mp
    rw [length_take]
    omega
  · intro k v₁ k' v₁' hk hk' hless
    obtain ⟨-, v, hv, rfl⟩ := h.get?_eq_some.mp hk
    obtain ⟨-, v', hv', -⟩ := h.get?_eq_some.mp hk'
    have hgap := hm.apart hv hv' hless
    rw [length_take]
    omega

lemma Cut.holds {len : ℕ} (h : m.Cut m' len) (a : ℕ) (x : α) :
    m'.Holds a x ↔ m.Holds a x ∧ a < len := by
  constructor
  · rintro ⟨k, v', hk, hle, hget⟩
    obtain ⟨hlt, v, hv, rfl⟩ := h.get?_eq_some.mp hk
    rw [getElem?_take] at hget
    by_cases hin : a - k < len - k
    · rw [if_pos hin] at hget
      exact ⟨⟨k, v, hv, hle, hget⟩, by omega⟩
    · rw [if_neg hin] at hget
      cases hget
  · rintro ⟨⟨k, v, hk, hle, hget⟩, hlt⟩
    refine ⟨k, v.take (len - k), h.get?_eq_some.mpr ⟨by omega, v, hk, rfl⟩, hle, ?_⟩
    rw [getElem?_take_of_lt (by omega)]
    exact hget

end RunMap

end Hdf5Pure
