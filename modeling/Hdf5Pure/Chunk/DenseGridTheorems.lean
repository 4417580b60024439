import Hdf5Pure.Chunk.DenseGrid
import Hdf5Pure.Utils.Counting
import Hdf5Pure.Utils.MixedRadix

/-!
# The grids that a plan recognises

A plan is right about every list of chunks exactly where the grid has fewer than `2 ^ 64` slots: past
that the unchecked slot count wraps, and a plan exists for chunks that fill only the first slots.
-/

namespace Hdf5Pure.Chunk

open MixedRadix List

def gridCounts (dims chunkDims : List ℕ) : List ℕ := zipWith divCeil dims chunkDims

def scaled (chunkDims cell : List ℕ) : List ℕ := zipWith (· * ·) cell chunkDims

def gridOffsets (dims chunkDims : List ℕ) : List (List ℕ) :=
  (cells (gridCounts dims chunkDims)).map (scaled chunkDims)

def ChunkInfo.coord (rank : ℕ) (info : ChunkInfo) : List ℕ := info.offsets.take rank

def Dense (infos : List ChunkInfo) (dims chunkDims : List ℕ) : Prop :=
  (∀ chunk ∈ chunkDims.take dims.length, chunk ≠ 0) ∧
    (infos.map (ChunkInfo.coord dims.length)).Perm (gridOffsets dims chunkDims)

/-- The plan returns, and gives a row-major order of exactly the dense grids. -/
def Recognises (infos : List ChunkInfo) (dims chunkDims : List ℕ) : Prop :=
  ∃ result, planDenseGrid infos dims chunkDims = .ok result ∧
    (result.isSome ↔ Dense infos dims chunkDims) ∧
    ∀ order ∈ result, order.Perm infos ∧
      order.map (ChunkInfo.coord dims.length) = gridOffsets dims chunkDims

/-! ## Counts -/

lemma lt_divCeil {c i n : ℕ} (hc : 0 < c) : i < divCeil n c ↔ i * c < n := by
  have hdiv := Nat.div_add_mod n c
  unfold divCeil
  split
  · rename_i hzero
    rw [hzero, Nat.add_zero] at hdiv
    conv_rhs => rw [← hdiv, Nat.mul_comm]
    exact (Nat.mul_lt_mul_left hc).symm
  · rename_i hne
    rw [Nat.lt_succ_iff, Nat.le_div_iff_mul_le hc]
    constructor
    · intro hle
      refine lt_of_le_of_ne hle fun heq => hne ?_
      rw [← heq, Nat.mul_mod_left]
    · exact Nat.le_of_lt

lemma numChunksPerDim_eq {dims chunkDims : List ℕ} (h : ∀ chunk ∈ chunkDims.take dims.length, chunk ≠ 0) :
    numChunksPerDim dims chunkDims = some (gridCounts dims chunkDims) := by
  induction dims generalizing chunkDims with
  | nil => cases chunkDims <;> rfl
  | cons dim dims ih =>
    cases chunkDims with
    | nil => rfl
    | cons chunk chunkDims =>
      rw [length_cons, take_succ_cons, forall_mem_cons] at h
      rw [numChunksPerDim, if_neg h.1, ih h.2]
      rfl

lemma numChunksPerDim_none {dims chunkDims : List ℕ} (h : ∃ chunk ∈ chunkDims.take dims.length, chunk = 0) :
    numChunksPerDim dims chunkDims = none := by
  induction dims generalizing chunkDims with
  | nil => simp at h
  | cons dim dims ih =>
    cases chunkDims with
    | nil => simp at h
    | cons chunk chunkDims =>
      rw [numChunksPerDim]
      by_cases hzero : chunk = 0
      · rw [if_pos hzero]
      · have hrest : ∃ c ∈ chunkDims.take dims.length, c = 0 := by
          simpa [Ne.symm hzero] using h
        rw [if_neg hzero, ih hrest, Option.map_none]

lemma wrappingProduct_eq (counts : List ℕ) : wrappingProduct counts = counts.prod % 2 ^ 64 := by
  have hfold : ∀ acc, acc < 2 ^ 64 →
      counts.foldl (fun acc n => acc * n % 2 ^ 64) acc = acc * counts.prod % 2 ^ 64 := by
    induction counts with
    | nil =>
      intro acc hacc
      rw [prod_nil, Nat.mul_one, Nat.mod_eq_of_lt hacc]
      rfl
    | cons n counts ih =>
      intro acc _
      rw [foldl_cons, ih _ (Nat.mod_lt _ (by decide)), prod_cons, ← Nat.mul_assoc,
        Nat.mod_mul_mod]
  rw [wrappingProduct, hfold 1 (by decide), Nat.one_mul]

/-! ## Slots of chunks -/

variable {cell : List ℕ}

lemma linearSlot_scaled {counts : List ℕ} (h : Within cell counts) {chunkDims offsets : List ℕ}
    {linear : ℕ} (hlen : counts.length ≤ chunkDims.length)
    (hpos : ∀ chunk ∈ chunkDims.take counts.length, chunk ≠ 0) (hlt : linear < 2 ^ 64)
    (hoffsets : offsets.take counts.length = scaled chunkDims cell) :
    linearSlot counts chunkDims offsets linear =
      some ((linear * counts.prod + number counts cell) % 2 ^ 64) := by
  induction h generalizing chunkDims offsets linear with
  | nil =>
    show some linear = some ((linear * 1 + 0) % 2 ^ 64)
    rw [Nat.mul_one, Nat.add_zero, Nat.mod_eq_of_lt hlt]
  | @cons d n cell counts hd hcell ih =>
    cases chunkDims with
    | nil => simp at hlen
    | cons chunk chunkDims =>
      cases offsets with
      | nil => cases hoffsets
      | cons offset offsets =>
        rw [length_cons, take_succ_cons, forall_mem_cons] at hpos
        obtain ⟨hoff, hrest⟩ := cons.inj hoffsets
        have hchunk : 0 < chunk := Nat.pos_of_ne_zero hpos.1
        rw [linearSlot, hoff, if_neg (by simp), Nat.mul_div_cancel _ hchunk,
          if_neg (Nat.not_le.mpr hd), ih (Nat.le_of_succ_le_succ hlen) hpos.2
            (Nat.mod_lt _ (by decide)) hrest, prod_cons, number]
        congr 1
        rw [Nat.add_mod, Nat.mod_mul_mod, ← Nat.add_mod]
        congr 1
        ring

/-- A chunk with a slot lies in a cell of the grid. -/
lemma exists_cell_of_linearSlot {counts : List ℕ} {chunkDims offsets : List ℕ} {linear slot : ℕ}
    (hlen : counts.length ≤ chunkDims.length) (hoffsets : counts.length ≤ offsets.length)
    (h : linearSlot counts chunkDims offsets linear = some slot) :
    ∃ cell, Within cell counts ∧ offsets.take counts.length = scaled chunkDims cell := by
  induction counts generalizing chunkDims offsets linear slot with
  | nil => exact ⟨[], .nil, rfl⟩
  | cons n counts ih =>
    cases chunkDims with
    | nil => simp at hlen
    | cons chunk chunkDims =>
      cases offsets with
      | nil => simp at hoffsets
      | cons offset offsets =>
        rw [linearSlot, Option.ite_none_left_eq_some, Option.ite_none_left_eq_some] at h
        obtain ⟨haligned, hbelow, h⟩ := h
        obtain ⟨cell, hcell, heq⟩ := ih (Nat.le_of_succ_le_succ hlen)
          (Nat.le_of_succ_le_succ hoffsets) h
        refine ⟨offset / chunk :: cell, .cons (Nat.lt_of_not_le hbelow) hcell, ?_⟩
        rw [length_cons, take_succ_cons, heq]
        show _ = offset / chunk * chunk :: _
        rw [Nat.div_mul_cancel (Nat.dvd_of_mod_eq_zero (not_not.mp haligned))]
        rfl

/-! ## Filling the slots -/

section Fill

variable {rank : ℕ} {counts chunkDims : List ℕ}

def slotOf (rank : ℕ) (counts chunkDims : List ℕ) (info : ChunkInfo) : Option ℕ :=
  if info.offsets.length < rank then none else linearSlot counts chunkDims info.offsets 0

lemma fillSlots_cons (info : ChunkInfo) (infos : List ChunkInfo) (slots : List (Option ChunkInfo)) :
    fillSlots rank counts chunkDims (info :: infos) slots =
      (slotOf rank counts chunkDims info).elim (.ok none) fun slot =>
        slots[slot]?.elim (.error ⟨"index out of bounds"⟩) fun stored =>
          if stored.isSome then .ok none
          else fillSlots rank counts chunkDims infos (slots.set slot (some info)) := by
  rw [fillSlots, slotOf]
  split
  · rfl
  cases linearSlot counts chunkDims info.offsets 0 with
  | none => rfl
  | some slot =>
    show _ = slots[slot]?.elim _ _
    cases hslot : slots[slot]? with
    | none => simp [hslot]
    | some stored => cases stored <;> simp [hslot]

variable {infos : List ChunkInfo}

lemma exists_fillSlots {slots : List (Option ChunkInfo)}
    (h : ∀ info ∈ infos, ∀ slot ∈ slotOf rank counts chunkDims info, slot < slots.length) :
    ∃ result, fillSlots rank counts chunkDims infos slots = .ok result := by
  induction infos generalizing slots with
  | nil => exact ⟨some slots, rfl⟩
  | cons info infos ih =>
    rw [fillSlots_cons]
    cases hslot : slotOf rank counts chunkDims info with
    | none => exact ⟨none, rfl⟩
    | some slot =>
      have hlt := h info (by simp) slot hslot
      rw [Option.elim_some, getElem?_eq_getElem hlt, Option.elim_some]
      split
      · exact ⟨none, rfl⟩
      · exact ih fun i hi s hs => by simpa using h i (by simp [hi]) s hs

/-- Filled slots hold the chunks, each in its own slot. -/
lemma fillSlots_eq_some {slots slots' : List (Option ChunkInfo)}
    (h : fillSlots rank counts chunkDims infos slots = .ok (some slots')) :
    ∃ numbers, List.Forall₂ (fun info k => slotOf rank counts chunkDims info = some k ∧
      slots'[k]? = some (some info)) infos numbers ∧ numbers.Nodup ∧
    (∀ k ∈ numbers, slots[k]? = some none) ∧ slots'.length = slots.length ∧
    ∀ k, k ∉ numbers → slots'[k]? = slots[k]? := by
  induction infos generalizing slots slots' with
  | nil =>
    cases h
    exact ⟨[], .nil, nodup_nil, by simp, rfl, fun _ _ => rfl⟩
  | cons info infos ih =>
    rw [fillSlots_cons] at h
    cases hslot : slotOf rank counts chunkDims info with
    | none => rw [hslot] at h; cases h
    | some slot =>
      rw [hslot, Option.elim_some] at h
      cases hstored : slots[slot]? with
      | none => rw [hstored] at h; cases h
      | some stored =>
        rw [hstored, Option.elim_some] at h
        split at h
        · cases h
        rename_i hfree
        have hfree : stored = none := by simpa using hfree
        have hlt : slot < slots.length := (List.getElem?_eq_some_iff.mp hstored).1
        obtain ⟨numbers, hnumbers, hnodup, hnone, hlen, hother⟩ := ih h
        -- the slot is taken from here on
        have hnew : slot ∉ numbers := by
          intro hmem
          have htaken := hnone slot hmem
          rw [getElem?_set_self hlt] at htaken
          cases htaken
        have hne : ∀ k ∈ numbers, slot ≠ k := fun k hk heq => hnew (heq ▸ hk)
        refine ⟨slot :: numbers, .cons ⟨hslot, ?_⟩ hnumbers, nodup_cons.mpr ⟨hnew, hnodup⟩, ?_,
          by rw [hlen, length_set], ?_⟩
        · rw [hother slot hnew, getElem?_set_self hlt]
        · refine forall_mem_cons.mpr ⟨by rw [hstored, hfree], fun k hk => ?_⟩
          rw [← hnone k hk, getElem?_set_ne (hne k hk)]
        · intro k hk
          rw [mem_cons, not_or] at hk
          rw [hother k hk.2, getElem?_set_ne (Ne.symm hk.1)]

lemma fillSlots_of_nodup {slots : List (Option ChunkInfo)} {numbers : List ℕ}
    (h : List.Forall₂ (fun info k => slotOf rank counts chunkDims info = some k) infos numbers)
    (hnodup : numbers.Nodup) (hnone : ∀ k ∈ numbers, slots[k]? = some none) :
    ∃ slots', fillSlots rank counts chunkDims infos slots = .ok (some slots') := by
  induction infos generalizing slots numbers with
  | nil => exact ⟨slots, rfl⟩
  | cons info infos ih =>
    cases h with
    | @cons _ slot _ numbers hslot hrest =>
      rw [nodup_cons] at hnodup
      rw [fillSlots_cons, hslot, Option.elim_some, hnone slot (by simp), Option.elim_some,
        if_neg (by simp)]
      apply ih hrest hnodup.2
      intro k hk
      rw [getElem?_set_ne fun heq => hnodup.1 (by rw [heq]; exact hk)]
      exact hnone k (by simp [hk])

/-- **Slots for all chunks are slots without a hole** where there are as many chunks as slots. -/
theorem fillSlots_perm {slots : List (Option ChunkInfo)}
    (h : fillSlots rank counts chunkDims infos (replicate infos.length none) =
      .ok (some slots)) :
    ∃ order : List ChunkInfo, slots = order.map some ∧ order.Perm infos ∧
      ∀ k (hk : k < order.length), slotOf rank counts chunkDims order[k] = some k := by
  obtain ⟨numbers, hnumbers, hnodup, hnone, hlen, -⟩ := fillSlots_eq_some h
  have hlt : ∀ k ∈ numbers, k < infos.length := by
    intro k hk
    have := (List.getElem?_eq_some_iff.mp (hnone k hk)).1
    rwa [List.length_replicate] at this
  -- distinct numbers below their count are all the numbers below it
  have hperm : numbers.Perm (range infos.length) := by
    apply (hnodup.subperm fun k hk => mem_range.mpr (hlt k hk)).perm_of_length_le
    rw [length_range, hnumbers.length_eq]
  have hslots : slots = (range infos.length).map fun k => slots[k]?.join := by
    apply ext_getElem (by simp [hlen])
    intro k hk _
    simp [getElem?_eq_getElem hk]
  have hinfos : infos.map some = numbers.map fun k => slots[k]?.join := by
    rw [← forall₂_eq_eq_eq, forall₂_map_left_iff, forall₂_map_right_iff]
    exact hnumbers.imp fun info k hk => by rw [hk.2]; rfl
  have hall : slots.Perm (infos.map some) := by
    rw [hinfos]
    conv_lhs => rw [hslots]
    exact (hperm.map _).symm
  obtain ⟨order, rfl⟩ : slots ∈ Set.range (map some) := by
    rw [Set.range_list_map]
    intro stored hmem
    obtain ⟨info, -, rfl⟩ := mem_map.mp (hall.mem_iff.mp hmem)
    exact ⟨info, rfl⟩
  have horder : order.Perm infos := (map_perm_map_iff (Option.some_injective _)).mp hall
  refine ⟨order, rfl, horder, fun k hk => ?_⟩
  have hmem : k ∈ numbers := hperm.mem_iff.mpr (mem_range.mpr (horder.length_eq ▸ hk))
  obtain ⟨info, -, hslot, hstored⟩ := exists_left_of_forall₂ hnumbers k hmem
  rw [getElem?_map, getElem?_eq_getElem hk] at hstored
  rw [Option.some_inj.mp (Option.some_inj.mp hstored)]
  exact hslot

lemma fillSlots_of_perm {numbers : List ℕ}
    (h : List.Forall₂ (fun info k => slotOf rank counts chunkDims info = some k) infos numbers)
    (hperm : numbers.Perm (range infos.length)) :
    ∃ order : List ChunkInfo, fillSlots rank counts chunkDims infos
      (replicate infos.length none) = .ok (some (order.map some)) := by
  have hfree : ∀ k ∈ numbers,
      (replicate infos.length (none : Option ChunkInfo))[k]? = some none := by
    intro k hk
    rw [getElem?_replicate, if_pos (mem_range.mp (hperm.mem_iff.mp hk))]
  obtain ⟨slots, hslots⟩ :=
    fillSlots_of_nodup h (hperm.nodup_iff.mpr nodup_range) hfree
  obtain ⟨order, rfl, -⟩ := fillSlots_perm hslots
  exact ⟨order, hslots⟩

end Fill

/-! ## Plans -/

lemma mapM_map_some {α : Type} (l : List α) : (l.map some).mapM id = some l := by
  induction l with
  | nil => rfl
  | cons a l ih => rw [map_cons, mapM_cons, ih]; rfl

section Plan

variable {dims chunkDims : List ℕ} (hrank : dims.length ≤ chunkDims.length)

include hrank

lemma length_gridCounts : (gridCounts dims chunkDims).length = dims.length := by
  rw [gridCounts, length_zipWith, Nat.min_eq_left hrank]

lemma length_scaled (h : Within cell (gridCounts dims chunkDims)) :
    (scaled chunkDims cell).length = dims.length := by
  rw [scaled, length_zipWith, h.length_eq, length_gridCounts hrank, Nat.min_eq_left hrank]

variable (hpos : ∀ chunk ∈ chunkDims.take dims.length, chunk ≠ 0)

include hpos

lemma slotOf_eq_some {info : ChunkInfo} {k : ℕ} :
    slotOf dims.length (gridCounts dims chunkDims) chunkDims info = some k ↔
      ∃ cell, Within cell (gridCounts dims chunkDims) ∧
        info.coord dims.length = scaled chunkDims cell ∧
        number (gridCounts dims chunkDims) cell % 2 ^ 64 = k := by
  have hlen := length_gridCounts hrank
  have hslot : ∀ {cell}, Within cell (gridCounts dims chunkDims) →
      info.coord dims.length = scaled chunkDims cell →
      linearSlot (gridCounts dims chunkDims) chunkDims info.offsets 0 =
        some (number (gridCounts dims chunkDims) cell % 2 ^ 64) := by
    intro cell hcell hcoord
    have heq := linearSlot_scaled hcell (hlen.trans_le hrank) (by rwa [hlen])
      (Nat.zero_lt_succ _) (by rw [hlen]; exact hcoord)
    rwa [Nat.zero_mul, Nat.zero_add] at heq
  unfold slotOf
  constructor
  · rw [Option.ite_none_left_eq_some]
    rintro ⟨hlong, h⟩
    obtain ⟨cell, hcell, hcoord⟩ := exists_cell_of_linearSlot (hlen.trans_le hrank)
      (hlen.trans_le (Nat.le_of_not_lt hlong)) h
    rw [hlen] at hcoord
    rw [hslot hcell hcoord] at h
    exact ⟨cell, hcell, hcoord, Option.some_inj.mp h⟩
  · rintro ⟨cell, hcell, hcoord, rfl⟩
    have hlong : dims.length ≤ info.offsets.length := by
      rw [← length_scaled hrank hcell, ← hcoord, ChunkInfo.coord, length_take]
      exact Nat.min_le_right _ _
    rw [if_neg (Nat.not_lt.mpr hlong), hslot hcell hcoord]

lemma unscaled_scaled (h : Within cell (gridCounts dims chunkDims)) :
    zipWith (· / ·) (scaled chunkDims cell) chunkDims = cell := by
  have hcell : cell.length = dims.length := h.length_eq.trans (length_gridCounts hrank)
  apply ext_getElem
  · rw [length_zipWith, length_scaled hrank h, hcell, Nat.min_eq_left hrank]
  · intro i _ hi
    rw [hcell] at hi
    have hchunk : chunkDims[i] ≠ 0 :=
      hpos _ (mem_take_iff_getElem.mpr ⟨i, by rw [Nat.min_eq_left hrank]; exact hi, rfl⟩)
    simp only [scaled, getElem_zipWith]
    exact Nat.mul_div_cancel _ (Nat.pos_of_ne_zero hchunk)

lemma forall₂_slotOf {infos : List ChunkInfo} {cs : List (List ℕ)}
    (hcs : ∀ cell ∈ cs, Within cell (gridCounts dims chunkDims))
    (h : (infos.map (ChunkInfo.coord dims.length)).Perm (cs.map (scaled chunkDims))) :
    ∃ numbers, List.Forall₂ (fun info k =>
        slotOf dims.length (gridCounts dims chunkDims) chunkDims info = some k) infos numbers ∧
      numbers.Perm (cs.map fun cell => number (gridCounts dims chunkDims) cell % 2 ^ 64) := by
  refine ⟨infos.map fun info => number (gridCounts dims chunkDims)
    (zipWith (· / ·) (info.coord dims.length) chunkDims) % 2 ^ 64, ?_, ?_⟩
  · rw [forall₂_map_right_iff, forall₂_same]
    intro info hmem
    obtain ⟨cell, hcell, hcoord⟩ :=
      mem_map.mp (h.mem_iff.mp (mem_map_of_mem hmem))
    rw [slotOf_eq_some hrank hpos]
    refine ⟨cell, hcs cell hcell, hcoord.symm, ?_⟩
    rw [← hcoord, unscaled_scaled hrank hpos (hcs cell hcell)]
  · have hmap := h.map fun coord =>
      number (gridCounts dims chunkDims) (zipWith (· / ·) coord chunkDims) % 2 ^ 64
    rw [map_map, map_map] at hmap
    refine hmap.trans (List.Perm.of_eq (map_congr_left fun cell hcell => ?_))
    rw [Function.comp_apply, unscaled_scaled hrank hpos (hcs cell hcell)]

lemma planDenseGrid_eq (infos : List ChunkInfo) :
    planDenseGrid infos dims chunkDims =
      if infos.length ≠ (gridCounts dims chunkDims).prod % 2 ^ 64 then .ok none
      else (fillSlots dims.length (gridCounts dims chunkDims) chunkDims infos
        (replicate infos.length none)).map fun slots => slots.bind fun s => s.mapM id := by
  unfold planDenseGrid
  rw [if_neg (Nat.not_lt.mpr hrank), numChunksPerDim_eq hpos]
  dsimp only
  rw [wrappingProduct_eq]
  split_ifs with hcount
  · rfl
  · rw [← not_not.mp hcount]
    cases fillSlots dims.length (gridCounts dims chunkDims) chunkDims infos
      (replicate infos.length none) <;> rfl

/-- **A plan is right about a grid whose slots can be counted.** -/
theorem recognises_of_lt (hslots : (gridCounts dims chunkDims).prod < 2 ^ 64)
    (infos : List ChunkInfo) : Recognises infos dims chunkDims := by
  have hmod : ∀ {cell}, Within cell (gridCounts dims chunkDims) →
      number (gridCounts dims chunkDims) cell % 2 ^ 64 = number (gridCounts dims chunkDims) cell :=
    fun hcell => Nat.mod_eq_of_lt ((number_lt hcell).trans hslots)
  unfold Recognises
  rw [planDenseGrid_eq hrank hpos, Nat.mod_eq_of_lt hslots]
  by_cases hcount : infos.length ≠ (gridCounts dims chunkDims).prod
  · refine ⟨none, if_pos hcount, ?_, by simp⟩
    simp only [Option.isSome_none, Bool.false_eq_true, false_iff]
    rintro ⟨-, hperm⟩
    apply hcount
    rw [← length_map (ChunkInfo.coord dims.length), hperm.length_eq, gridOffsets,
      length_map, length_cells]
  rw [if_neg hcount]
  replace hcount := not_not.mp hcount
  obtain ⟨result, hres⟩ : ∃ result, fillSlots dims.length (gridCounts dims chunkDims) chunkDims
      infos (replicate infos.length none) = .ok result := by
    apply exists_fillSlots
    intro info _ slot hslot
    obtain ⟨cell, hcell, -, rfl⟩ := (slotOf_eq_some hrank hpos).mp hslot
    rw [hmod hcell, length_replicate, hcount]
    exact number_lt hcell
  rw [hres]
  cases result with
  | none =>
    refine ⟨none, rfl, ?_, by simp⟩
    simp only [Option.isSome_none, Bool.false_eq_true, false_iff]
    -- chunks that fill the grid have distinct slots
    rintro ⟨-, hperm⟩
    obtain ⟨numbers, hnumbers, hall⟩ :=
      forall₂_slotOf hrank hpos (fun cell => mem_cells.mp) hperm
    rw [map_congr_left fun cell hcell => hmod (mem_cells.mp hcell), map_number_cells,
      ← hcount] at hall
    obtain ⟨order, hfill⟩ := fillSlots_of_perm hnumbers hall
    rw [hres] at hfill
    cases hfill
  | some slots =>
    obtain ⟨order, rfl, horder, hslot⟩ := fillSlots_perm hres
    have hgrid : order.map (ChunkInfo.coord dims.length) = gridOffsets dims chunkDims := by
      have hlen : order.length = (gridCounts dims chunkDims).prod := by
        rw [horder.length_eq, hcount]
      rw [gridOffsets, cells_eq_map_digits, map_map]
      apply ext_getElem (by simp [hlen])
      intro k hk _
      rw [length_map] at hk
      obtain ⟨cell, hcell, hcoord, hnumber⟩ := (slotOf_eq_some hrank hpos).mp (hslot k hk)
      rw [hmod hcell] at hnumber
      rw [getElem_map, getElem_map, getElem_range, hcoord, ← hnumber,
        Function.comp_apply, digits_number hcell]
    refine ⟨some order, by rw [Except.map, Option.bind_some, mapM_map_some], ?_, ?_⟩
    · simp only [Option.isSome_some, true_iff]
      refine ⟨hpos, ?_⟩
      rw [← hgrid]
      exact (horder.map _).symm
    · rintro _ ⟨⟩
      exact ⟨horder, hgrid⟩

/-- **A plan accepts holes in a grid whose slots cannot be counted**: the chunks of the first slots, as
many as the wrapped count. -/
theorem not_recognises_of_ge (hslots : 2 ^ 64 ≤ (gridCounts dims chunkDims).prod) :
    ∃ infos, infos.length < 2 ^ 64 ∧ ¬ Recognises infos dims chunkDims := by
  set t := (gridCounts dims chunkDims).prod % 2 ^ 64 with ht
  have hlt : t < 2 ^ 64 := Nat.mod_lt _ (by decide)
  let cs := (cells (gridCounts dims chunkDims)).take t
  let infos := cs.map fun cell => ChunkInfo.mk 0 0 (scaled chunkDims cell) 0
  have hcs : ∀ cell ∈ cs, Within cell (gridCounts dims chunkDims) :=
    fun cell hcell => mem_cells.mp (mem_of_mem_take hcell)
  have hcount : infos.length = t := by
    rw [length_map, length_take, length_cells]
    omega
  have hcoords : infos.map (ChunkInfo.coord dims.length) = cs.map (scaled chunkDims) := by
    rw [map_map]
    apply map_congr_left
    intro cell hcell
    exact take_of_length_le (length_scaled hrank (hcs cell hcell)).le
  have hnumbers : (cs.map fun cell => number (gridCounts dims chunkDims) cell % 2 ^ 64) =
      range t := by
    have hrange : cs.map (number (gridCounts dims chunkDims)) = range t := by
      rw [map_take, map_number_cells, take_range, Nat.min_eq_left (by omega)]
    have hwrap : (range t).map (· % 2 ^ 64) = (range t).map id :=
      map_congr_left fun k hk => Nat.mod_eq_of_lt ((mem_range.mp hk).trans hlt)
    rw [map_id, ← hrange, map_map] at hwrap
    exact hwrap.trans hrange
  obtain ⟨numbers, hslots', hall⟩ := forall₂_slotOf hrank hpos hcs (List.Perm.of_eq hcoords)
  rw [hnumbers, ← hcount] at hall
  obtain ⟨order, hfill⟩ := fillSlots_of_perm hslots' hall
  refine ⟨infos, hcount ▸ hlt, ?_⟩
  rintro ⟨result, hplan, hdense, -⟩
  rw [planDenseGrid_eq hrank hpos, if_neg (by rw [hcount]; simp [ht]), hfill, Except.map,
    Option.bind_some, mapM_map_some] at hplan
  cases hplan
  obtain ⟨-, hperm⟩ := hdense.mp rfl
  have := hperm.length_eq
  rw [length_map, hcount, gridOffsets, length_map, length_cells] at this
  omega

end Plan

end Hdf5Pure.Chunk
