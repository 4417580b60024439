import Mathlib

/-!
# Ordered maps

Finite maps in the order of their keys, as a list of entries whose keys ascend strictly. The
queries are those of an ordered tree: by key, and by position relative to a key. An ordered set
is a map to `Unit`.
-/

namespace Hdf5Pure

open List

/-- A finite map with its entries in ascending order of their keys. -/
@[ext] structure OrdMap (κ ν : Type) [LinearOrder κ] where
  entries : List (κ × ν)
  sorted : entries.Pairwise fun a b => a.1 < b.1

namespace OrdMap

variable {κ ν : Type} [LinearOrder κ]

/-- The map without entries. -/
def empty : OrdMap κ ν := ⟨[], List.Pairwise.nil⟩

/-- The map with `v` at `k`. -/
def insert (m : OrdMap κ ν) (k : κ) (v : ν) : OrdMap κ ν where
  entries := m.entries.filter (fun e => decide (e.1 < k)) ++
    (k, v) :: m.entries.filter (fun e => decide (k < e.1))
  sorted := by
    rw [pairwise_append, pairwise_cons]
    refine ⟨m.sorted.filter _, ⟨?_, m.sorted.filter _⟩, ?_⟩
    · intro e he
      simpa using (mem_filter.mp he).2
    · intro a ha b hb
      have hak : a.1 < k := by simpa using (mem_filter.mp ha).2
      rw [mem_cons] at hb
      rcases hb with rfl | hb
      · exact hak
      · have hkb : k < b.1 := by simpa using (mem_filter.mp hb).2
        exact hak.trans hkb

/-- The map without `k`. -/
def remove (m : OrdMap κ ν) (k : κ) : OrdMap κ ν :=
  ⟨m.entries.filter fun e => decide (e.1 ≠ k), m.sorted.filter _⟩

/-- The value at `k`. -/
def get? (m : OrdMap κ ν) (k : κ) : Option ν :=
  (m.entries.find? fun e => decide (e.1 = k)).map Prod.snd

/-- The first entry at or after `k`. -/
def firstFrom (m : OrdMap κ ν) (k : κ) : Option (κ × ν) :=
  m.entries.find? fun e => decide (k ≤ e.1)

/-- The last entry before `k`. -/
def lastBelow (m : OrdMap κ ν) (k : κ) : Option (κ × ν) :=
  (m.entries.filter fun e => decide (e.1 < k)).getLast?

/-- The first entry and the map without it. -/
def popFirst (m : OrdMap κ ν) : Option ((κ × ν) × OrdMap κ ν) :=
  match m with
  | ⟨[], _⟩ => none
  | ⟨e :: rest, h⟩ => some (e, ⟨rest, h.of_cons⟩)

/-- The keys in ascending order. -/
def keys (m : OrdMap κ ν) : List κ := m.entries.map Prod.fst

/-- The values in ascending order of their keys. -/
def values (m : OrdMap κ ν) : List ν := m.entries.map Prod.snd

/-- Inserts the entries of a list in order. -/
def collect (l : List (κ × ν)) : OrdMap κ ν := l.foldl (fun m e => m.insert e.1 e.2) empty

/-! ## Keys -/

@[simp] lemma keys_empty : (empty : OrdMap κ ν).keys = [] := rfl

@[simp] lemma values_empty : (empty : OrdMap κ ν).values = [] := rfl

variable {m : OrdMap κ ν} {k : κ}

variable {v : ν}

/-- Inserting adds one key. -/
lemma mem_keys_insert {k' : κ} : k' ∈ (m.insert k v).keys ↔ k' = k ∨ k' ∈ m.keys := by
  simp only [keys, insert, map_append, map_cons, mem_append, mem_cons,
    mem_map, mem_filter, decide_eq_true_eq]
  constructor
  · rintro (⟨e, ⟨he, -⟩, rfl⟩ | rfl | ⟨e, ⟨he, -⟩, rfl⟩)
    · exact .inr ⟨e, he, rfl⟩
    · exact .inl rfl
    · exact .inr ⟨e, he, rfl⟩
  · rintro (rfl | ⟨e, he, rfl⟩)
    · exact .inr (.inl rfl)
    · rcases lt_trichotomy e.1 k with h | h | h
      · exact .inl ⟨e, ⟨he, h⟩, rfl⟩
      · exact .inr (.inl h)
      · exact .inr (.inr ⟨e, ⟨he, h⟩, rfl⟩)

/-- Removing takes one key. -/
lemma mem_keys_remove {k' : κ} : k' ∈ (m.remove k).keys ↔ k' ≠ k ∧ k' ∈ m.keys := by
  simp only [keys, remove, mem_map, mem_filter, decide_eq_true_eq]
  constructor
  · rintro ⟨e, ⟨he, hne⟩, rfl⟩
    exact ⟨hne, e, he, rfl⟩
  · rintro ⟨hne, e, he, rfl⟩
    exact ⟨e, ⟨he, hne⟩, rfl⟩

/-! ## Lookups -/

@[simp] lemma get?_empty (k : κ) : (empty : OrdMap κ ν).get? k = none := rfl

private lemma find?_filter_key (m : OrdMap κ ν) (p : κ → Bool) (k : κ) :
    (m.entries.filter fun e => p e.1).find? (fun e => decide (e.1 = k)) =
      if p k then m.entries.find? (fun e => decide (e.1 = k)) else none := by
  rw [find?_filter]
  by_cases hp : p k
  · rw [if_pos hp]
    congr 1
    funext e
    by_cases he : e.1 = k
    · simp [he, hp]
    · simp [he]
  · rw [if_neg hp, find?_eq_none]
    intro e _ he
    obtain ⟨hpe, hek⟩ := of_decide_eq_true he
    exact hp ((of_decide_eq_true hek) ▸ hpe)

/-- A lookup after an insertion. -/
lemma get?_insert (m : OrdMap κ ν) (k k' : κ) (v : ν) :
    (m.insert k v).get? k' = if k' = k then some v else m.get? k' := by
  unfold get? insert
  rw [find?_append, find?_cons,
    find?_filter_key m (fun e => decide (e < k)), find?_filter_key m (fun e => decide (k < e))]
  rcases lt_trichotomy k' k with h | rfl | h
  · simp [h, h.ne, h.ne', h.not_gt]
  · simp
  · simp [h, h.ne, h.ne', h.not_gt]

/-- A lookup after a removal. -/
lemma get?_remove (m : OrdMap κ ν) (k k' : κ) :
    (m.remove k).get? k' = if k' = k then none else m.get? k' := by
  unfold get? remove
  rw [find?_filter_key m (fun e => decide (e ≠ k))]
  by_cases h : k' = k <;> simp [h]

@[simp] lemma get?_insert_self (m : OrdMap κ ν) (k : κ) (v : ν) :
    (m.insert k v).get? k = some v := by
  rw [get?_insert, if_pos rfl]

lemma get?_insert_eq_some {k' : κ} {v' : ν} :
    (m.insert k v).get? k' = some v' ↔ k' = k ∧ v' = v ∨ k' ≠ k ∧ m.get? k' = some v' := by
  rw [get?_insert]
  by_cases h : k' = k
  · simp [h, eq_comm]
  · simp [h]

lemma get?_remove_eq_some {k' : κ} {v' : ν} :
    (m.remove k).get? k' = some v' ↔ k' ≠ k ∧ m.get? k' = some v' := by
  rw [get?_remove]
  by_cases h : k' = k <;> simp

/-- No key occurs twice. -/
lemma nodup_keys (m : OrdMap κ ν) : m.keys.Nodup :=
  (pairwise_map.mpr m.sorted).imp ne_of_lt

/-- The entries are the keys with the values found under them. -/
lemma get?_eq_some_iff : m.get? k = some v ↔ (k, v) ∈ m.entries := by
  unfold get?
  constructor
  · intro h
    obtain ⟨⟨k', v'⟩, hfind, rfl⟩ := Option.map_eq_some_iff.mp h
    have hkey : k' = k := by simpa using find?_some hfind
    exact hkey ▸ mem_of_find?_eq_some hfind
  · intro hmem
    cases hfind : m.entries.find? fun e => decide (e.1 = k) with
    | none => simpa using find?_eq_none.mp hfind _ hmem
    | some e =>
      have hkey : e.1 = (k, v).1 := by simpa using find?_some hfind
      rw [inj_on_of_nodup_map m.nodup_keys (mem_of_find?_eq_some hfind) hmem hkey]
      rfl

lemma get?_eq_none_of_lt (h : ∀ k' v, m.get? k' = some v → k < k') : m.get? k = none := by
  by_contra hne
  obtain ⟨v, hv⟩ := Option.ne_none_iff_exists'.mp hne
  exact absurd (h k v hv) (lt_irrefl k)

/-- An entry of a new key comes to those that are there. -/
lemma perm_insert (v : ν) (h : m.get? k = none) :
    (m.insert k v).entries.Perm ((k, v) :: m.entries) := by
  have hne : ∀ e ∈ m.entries, e.1 ≠ k := by simpa [get?] using h
  -- every entry lies on one side of the absent key
  have hsplit : m.entries.filter (fun e => decide (k < e.1)) =
      m.entries.filter (fun e => !decide (e.1 < k)) := by
    apply filter_congr
    intro e he
    rcases lt_or_gt_of_ne (hne e he) with hlt | hgt
    · simp [hlt, hlt.not_gt]
    · simp [hgt, hgt.not_gt]
  show (_ ++ (k, v) :: m.entries.filter (fun e => decide (k < e.1))).Perm _
  rw [hsplit]
  exact perm_middle.trans ((filter_append_perm _ _).cons _)

/-- Maps with the same lookups are equal. -/
lemma ext_get? {m' : OrdMap κ ν} (h : ∀ k, m.get? k = m'.get? k) : m = m' := by
  have hmem : ∀ e, e ∈ m.entries ↔ e ∈ m'.entries := by
    intro e
    rw [← get?_eq_some_iff, h, get?_eq_some_iff]
  have hperm : m.entries.Perm m'.entries :=
    (perm_ext_iff_of_nodup (.of_map _ m.nodup_keys) (.of_map _ m'.nodup_keys)).mpr hmem
  apply OrdMap.ext
  refine hperm.eq_of_pairwise (fun a b ha hb hab hba => ?_) m.sorted m'.sorted
  exact absurd hba hab.not_gt

/-- Removing a key before it is inserted changes nothing. -/
lemma insert_remove (m : OrdMap κ ν) (k : κ) (v : ν) : (m.remove k).insert k v = m.insert k v := by
  apply ext_get?
  intro k'
  rw [get?_insert, get?_insert, get?_remove]
  by_cases hk : k' = k
  · rw [if_pos hk, if_pos hk]
  · rw [if_neg hk, if_neg hk, if_neg hk]

/-- Inserting what is there changes nothing. -/
lemma insert_get? (h : m.get? k = some v) : m.insert k v = m := by
  apply ext_get?
  intro k'
  rw [get?_insert]
  by_cases hk : k' = k
  · rw [if_pos hk, hk, h]
  · rw [if_neg hk]

/-! ## Weights -/

/-- The sum of `f` over the values. -/
def weight (f : ν → ℕ) (m : OrdMap κ ν) : ℕ := (m.values.map f).sum

variable {f : ν → ℕ}

/-- A new entry adds its weight. -/
lemma weight_insert (v : ν) (h : m.get? k = none) : weight f (m.insert k v) = m.weight f + f v := by
  have hsum := ((perm_insert v h).map fun e => f e.2).sum_eq
  simp only [weight, values, map_map, map_cons, sum_cons, Function.comp_def] at hsum ⊢
  omega

/-- A removed entry takes its weight. -/
lemma weight_remove (h : m.get? k = some v) : m.weight f = weight f (m.remove k) + f v := by
  have hnone : (m.remove k).get? k = none := by
    rw [get?_remove, if_pos rfl]
  rw [← weight_insert v hnone, insert_remove, insert_get? h]

/-- A replaced value changes the weight by the difference. -/
lemma weight_insert_present (h : m.get? k = some v) (v' : ν) :
    weight f (m.insert k v') + f v = m.weight f + f v' := by
  have hnone : (m.remove k).get? k = none := by
    rw [get?_remove, if_pos rfl]
  rw [← insert_remove, weight_insert v' hnone, weight_remove h]
  omega

/-! ## Neighbours -/

/-- Nothing lies before a key that has no entry before it. -/
lemma lastBelow_eq_none (h : m.lastBelow k = none) {k' : κ}
    (hk' : m.get? k' = some v) : k ≤ k' := by
  rw [lastBelow, getLast?_eq_none_iff, filter_eq_nil_iff] at h
  simpa using h _ (get?_eq_some_iff.mp hk')

/-- The last entry before a key has the greatest key there. -/
lemma lastBelow_eq_some {e : κ × ν} (h : m.lastBelow k = some e) :
    m.get? e.1 = some e.2 ∧ e.1 < k ∧ ∀ k' v, m.get? k' = some v → k' < k → k' ≤ e.1 := by
  obtain ⟨before, hbefore⟩ := getLast?_eq_some_iff.mp h
  have he : e ∈ m.entries.filter fun e => decide (e.1 < k) := by rw [hbefore]; simp
  obtain ⟨hmem, hlt⟩ := mem_filter.mp he
  refine ⟨get?_eq_some_iff.mpr hmem, by simpa using hlt, fun k' v hk' hk => ?_⟩
  have hmem' : (k', v) ∈ m.entries.filter fun e => decide (e.1 < k) :=
    mem_filter.mpr ⟨get?_eq_some_iff.mp hk', by simpa using hk⟩
  have hsort := m.sorted.filter fun e => decide (e.1 < k)
  rw [hbefore] at hmem' hsort
  rcases mem_append.mp hmem' with hin | hin
  · exact ((pairwise_append.mp hsort).2.2 _ hin e mem_cons_self).le
  · rw [← mem_singleton.mp hin]

/-- Only the empty map has no first entry. -/
lemma popFirst_eq_none : m.popFirst = none ↔ m = empty := by
  cases m with
  | mk entries sorted =>
    cases entries with
    | nil => exact ⟨fun _ => rfl, fun _ => rfl⟩
    | cons e rest => exact ⟨nofun, nofun⟩

/-- Popping takes out the entry with the least key. -/
lemma popFirst_eq_some {rest : OrdMap κ ν} {e : κ × ν} (h : m.popFirst = some (e, rest)) :
    m = rest.insert e.1 e.2 ∧ (∀ k v, rest.get? k = some v → e.1 < k) ∧
      m.entries.length = rest.entries.length + 1 := by
  cases m with
  | mk entries sorted =>
    cases entries with
    | nil => cases h
    | cons e' rest' =>
      cases h
      obtain ⟨hfirst, -⟩ := pairwise_cons.mp sorted
      refine ⟨?_, fun k v hk => hfirst _ (get?_eq_some_iff.mp hk), rfl⟩
      apply OrdMap.ext
      have hlow : rest'.filter (fun a => decide (a.1 < e.1)) = [] := by
        rw [filter_eq_nil_iff]
        intro a ha
        simpa using (hfirst a ha).le
      have hhigh : rest'.filter (fun a => decide (e.1 < a.1)) = rest' := by
        rw [filter_eq_self]
        intro a ha
        simpa using hfirst a ha
      simp [insert, hlow, hhigh]

/-- A lookup finds the popped entry or looks in the rest. -/
lemma get?_of_popFirst {rest : OrdMap κ ν} {e : κ × ν} (h : m.popFirst = some (e, rest)) :
    m.get? k = some v ↔ k = e.1 ∧ v = e.2 ∨ e.1 < k ∧ rest.get? k = some v := by
  obtain ⟨hm, hlt, -⟩ := popFirst_eq_some h
  rw [hm, get?_insert_eq_some]
  exact or_congr_right ⟨fun hk => ⟨hlt k v hk.2, hk.2⟩, fun hk => ⟨hk.1.ne', hk.2⟩⟩

/-- No entry from a key on means that all keys are lower. -/
lemma firstFrom_eq_none : m.firstFrom k = none ↔ ∀ k' ∈ m.keys, k' < k := by
  simp [firstFrom, keys]

/-- The first entry at or after a key has the least key there. -/
lemma firstFrom_eq_some {e : κ × ν} (h : m.firstFrom k = some e) :
    e ∈ m.entries ∧ k ≤ e.1 ∧ ∀ k' ∈ m.keys, k ≤ k' → e.1 ≤ k' := by
  have hmem := mem_of_find?_eq_some h
  have hle : k ≤ e.1 := by simpa using find?_some h
  refine ⟨hmem, hle, fun k' hk' hkk' => ?_⟩
  obtain ⟨e', he', rfl⟩ := mem_map.mp hk'
  obtain ⟨-, before, after, hsplit, hbefore⟩ := find?_eq_some_iff_append.mp h
  rw [hsplit, mem_append, mem_cons] at he'
  have hsort := m.sorted
  rw [hsplit, pairwise_append, pairwise_cons] at hsort
  rcases he' with he' | rfl | he'
  · have hlt := hbefore e' he'
    simp only [Bool.not_eq_true', decide_eq_false_iff_not] at hlt
    exact absurd hkk' hlt
  · exact le_rfl
  · exact (hsort.2.1.1 e' he').le

/-! ## Growing maps -/

/-- `m'` is `m` with entries at the keys of `new`, which `m` does not have. -/
structure Extends (m m' : OrdMap κ ν) (new : List κ) : Prop where
  old : ∀ k, k ∉ new → m'.get? k = m.get? k
  fresh : ∀ k ∈ new, m.get? k = none

namespace Extends

variable {m m' m'' : OrdMap κ ν} {new new' : List κ}

lemma refl (m : OrdMap κ ν) : m.Extends m [] := ⟨fun _ _ => rfl, by simp⟩

lemma insert (h : m.get? k = none) (v : ν) : m.Extends (m.insert k v) [k] := by
  constructor
  · intro k' hk'
    rw [get?_insert, if_neg (by simpa using hk')]
  · intro k' hk'
    rw [mem_singleton.mp hk']
    exact h

/-- Extensions compose. -/
lemma trans (h : m.Extends m' new) (h' : m'.Extends m'' new') : m.Extends m'' (new ++ new') := by
  constructor
  · intro k hk
    rw [mem_append, not_or] at hk
    rw [h'.old k hk.2, h.old k hk.1]
  · intro k hk
    by_cases hnew : k ∈ new
    · exact h.fresh k hnew
    · rw [← h.old k hnew]
      exact h'.fresh k ((mem_append.mp hk).resolve_left hnew)

/-- An extension keeps the entries. -/
lemma grows (h : m.Extends m' new) {v : ν} (hk : m.get? k = some v) : m'.get? k = some v := by
  have hnew : k ∉ new := by
    intro hmem
    rw [h.fresh k hmem] at hk
    cases hk
  rw [h.old k hnew]
  exact hk

/-- What an extension lacks was not there before. -/
lemma absent (h : m.Extends m' new) (hk : m'.get? k = none) : m.get? k = none := by
  by_cases hnew : k ∈ new
  · exact h.fresh k hnew
  · rw [← h.old k hnew]
    exact hk

end Extends

/-! ## Maps whose values carry their keys -/

/-- Every value is stored at the key it carries. -/
def Keyed (key : ν → κ) (m : OrdMap κ ν) : Prop := ∀ e ∈ m.entries, e.1 = key e.2

section Keyed

variable {key : ν → κ} {m : OrdMap κ ν}

lemma keyed_empty : Keyed key (empty : OrdMap κ ν) := by simp [Keyed, empty]

/-- Inserting a value at its own key keeps a map keyed. -/
lemma Keyed.insert (h : Keyed key m) (v : ν) : Keyed key (m.insert (key v) v) := by
  intro e he
  simp only [OrdMap.insert, mem_append, mem_cons, mem_filter] at he
  rcases he with ⟨he, -⟩ | rfl | ⟨he, -⟩
  · exact h e he
  · rfl
  · exact h e he

lemma Keyed.remove (h : Keyed key m) (k : κ) : Keyed key (m.remove k) :=
  fun e he => h e (mem_of_mem_filter he)

/-- The values ascend by their keys. -/
lemma Keyed.values_pairwise (h : Keyed key m) : m.values.Pairwise fun a b => key a < key b := by
  rw [values, pairwise_map]
  refine m.sorted.imp_of_mem fun {a b} ha hb hlt => ?_
  rwa [h a ha, h b hb] at hlt

/-- The values determine the entries. -/
lemma Keyed.entries_eq (h : Keyed key m) : m.entries = m.values.map fun v => (key v, v) := by
  rw [values, map_map]
  conv_lhs => rw [← map_id m.entries]
  apply map_congr_left
  intro e he
  exact Prod.ext (h e he) rfl

/-- Filtering entries by their keys filters the values by theirs. -/
lemma Keyed.filter_entries (h : Keyed key m) (p : κ → Bool) :
    (m.entries.filter fun e => p e.1) =
      (m.values.filter fun v => p (key v)).map fun v => (key v, v) := by
  rw [h.entries_eq, filter_map]
  rfl

lemma Keyed.find?_entries (h : Keyed key m) (p : κ → Bool) :
    (m.entries.find? fun e => p e.1) =
      (m.values.find? fun v => p (key v)).map fun v => (key v, v) := by
  rw [h.entries_eq, find?_map]
  rfl

omit [LinearOrder κ] in
lemma map_snd_map (l : List ν) : (l.map fun v => (key v, v)).map Prod.snd = l := by
  rw [map_map]
  exact map_id l

variable {before after : List ν}

/-- A value is inserted between the lower and the higher ones. -/
lemma Keyed.values_insert (h : Keyed key m) {v : ν} (hsplit : m.values = before ++ after)
    (hb : ∀ a ∈ before, key a < key v)
    (ha : ∀ a ∈ after, key v < key a) : (m.insert (key v) v).values = before ++ v :: after := by
  have hlow : (m.values.filter fun a => decide (key a < key v)) = before := by
    rw [hsplit, filter_append, filter_eq_self.mpr (by simpa using hb),
      filter_eq_nil_iff.mpr (by simpa using fun a h => (ha a h).le), append_nil]
  have hhigh : (m.values.filter fun a => decide (key v < key a)) = after := by
    rw [hsplit, filter_append, filter_eq_nil_iff.mpr (by simpa using fun a h => (hb a h).le),
      filter_eq_self.mpr (by simpa using ha), nil_append]
  rw [values, OrdMap.insert, map_append, map_cons,
    h.filter_entries fun k => decide (k < key v), h.filter_entries fun k => decide (key v < k),
    map_snd_map, map_snd_map, hlow, hhigh]

/-- A value is removed from its place. -/
lemma Keyed.values_remove (h : Keyed key m) {v : ν}
    (hsplit : m.values = before ++ v :: after) : (m.remove (key v)).values = before ++ after := by
  have hsort := h.values_pairwise
  rw [hsplit, pairwise_append, pairwise_cons] at hsort
  have hb : ∀ a ∈ before, key a ≠ key v := fun a ha => (hsort.2.2 a ha v (by simp)).ne
  have ha : ∀ a ∈ after, key a ≠ key v := fun a ha => (hsort.2.1.1 a ha).ne'
  show (m.entries.filter fun e => decide (e.1 ≠ key v)).map Prod.snd = before ++ after
  rw [h.filter_entries fun k => decide (k ≠ key v), map_snd_map, hsplit, filter_append,
    filter_cons, filter_eq_self.mpr (by simpa using hb),
    filter_eq_self.mpr (by simpa using ha)]
  simp

/-- A value is found at its key. -/
lemma Keyed.get?_of_mem (h : Keyed key m) {v : ν} (hv : v ∈ m.values) :
    m.get? (key v) = some v := by
  obtain ⟨before, after, hsplit⟩ := append_of_mem hv
  have hsort := h.values_pairwise
  rw [hsplit, pairwise_append] at hsort
  have hb : ∀ a ∈ before, key a ≠ key v := fun a ha => (hsort.2.2 a ha v (by simp)).ne
  rw [get?, h.find?_entries fun k => decide (k = key v), Option.map_map, hsplit, find?_append,
    find?_eq_none.mpr (by simpa using hb)]
  simp

/-- What is found at a key carries it. -/
lemma Keyed.get?_eq_some (h : Keyed key m) {v : ν} (hv : m.get? k = some v) :
    v ∈ m.values ∧ key v = k := by
  rw [get?, h.find?_entries fun k' => decide (k' = k), Option.map_map] at hv
  obtain ⟨a, ha, rfl⟩ := Option.map_eq_some_iff.mp hv
  exact ⟨mem_of_find?_eq_some ha, by simpa using find?_some ha⟩

/-- The last value with a lower key, where the keys split at `k`. -/
lemma Keyed.lastBelow_eq (h : Keyed key m) (hsplit : m.values = before ++ after)
    (hb : ∀ a ∈ before, key a < k) (ha : ∀ a ∈ after, k ≤ key a) :
    m.lastBelow k = before.getLast?.map fun v => (key v, v) := by
  rw [lastBelow, h.filter_entries fun k' => decide (k' < k), hsplit, filter_append,
    filter_eq_self.mpr (by simpa using hb), filter_eq_nil_iff.mpr (by simpa using ha),
    append_nil, getLast?_map]

/-- The first value with a key from `k` on, where the keys split at `k`. -/
lemma Keyed.firstFrom_eq (h : Keyed key m) (hsplit : m.values = before ++ after)
    (hb : ∀ a ∈ before, key a < k) (ha : ∀ a ∈ after, k ≤ key a) :
    m.firstFrom k = after.head?.map fun v => (key v, v) := by
  rw [firstFrom, h.find?_entries fun k' => decide (k ≤ k'), hsplit, find?_append,
    find?_eq_none.mpr (by simpa using hb), Option.none_or, ← head?_filter,
    filter_eq_self.mpr (by simpa using ha)]

/-- The values after an insertion are the new one and old ones. -/
lemma mem_values_insert {v a : ν} (h : a ∈ (m.insert k v).values) : a = v ∨ a ∈ m.values := by
  simp only [values, OrdMap.insert, map_append, map_cons, mem_append, mem_cons,
    mem_map, mem_filter] at h ⊢
  rcases h with ⟨e, ⟨he, -⟩, rfl⟩ | rfl | ⟨e, ⟨he, -⟩, rfl⟩
  · exact .inr ⟨e, he, rfl⟩
  · exact .inl rfl
  · exact .inr ⟨e, he, rfl⟩

/-- Collecting values in any order keeps one of each key. -/
lemma collect_keyed (key : ν → κ) (l : List ν) :
    Keyed key (collect (l.map fun v => (key v, v))) ∧
      ∀ v ∈ (collect (l.map fun v => (key v, v))).values, v ∈ l := by
  induction l using reverseRecOn with
  | nil => exact ⟨keyed_empty, by simp [collect]⟩
  | append_singleton l v ih =>
    have hstep : collect ((l ++ [v]).map fun v => (key v, v)) =
        (collect (l.map fun v => (key v, v))).insert (key v) v := by
      simp [collect]
    rw [hstep]
    refine ⟨ih.1.insert v, fun a ha => ?_⟩
    rw [mem_append, mem_singleton]
    rcases mem_values_insert ha with rfl | ha
    · exact .inr rfl
    · exact .inl (ih.2 a ha)

/-- Collecting ascending values keeps them all. -/
lemma collect_spec {l : List ν} (hl : l.Pairwise fun a b => key a < key b) :
    Keyed key (collect (l.map fun v => (key v, v))) ∧
      (collect (l.map fun v => (key v, v))).values = l := by
  induction l using reverseRecOn with
  | nil => exact ⟨keyed_empty, rfl⟩
  | append_singleton l v ih =>
    rw [pairwise_append] at hl
    obtain ⟨hkeyed, hvalues⟩ := ih hl.1
    have hstep : collect ((l ++ [v]).map fun v => (key v, v)) =
        (collect (l.map fun v => (key v, v))).insert (key v) v := by
      simp [collect]
    rw [hstep]
    refine ⟨hkeyed.insert v, hkeyed.values_insert (by rw [hvalues, append_nil]) ?_ (by simp)⟩
    intro a ha
    exact hl.2.2 a ha v (by simp)

end Keyed

end OrdMap

end Hdf5Pure
