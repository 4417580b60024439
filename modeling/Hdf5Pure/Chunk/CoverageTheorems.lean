import Hdf5Pure.Chunk.DenseGridTheorems

/-!
# Coverage and plans

The proof of coverage succeeds for the dense grids whose elements can be counted, so that it agrees with
the plan there.
-/

namespace Hdf5Pure.Chunk

open MixedRadix List

def contribution (chunkDims dims cell : List ℕ) : ℕ :=
  (zipWith (fun b c => min b.1 (b.2 - c * b.1)) (chunkDims.zip dims) cell).prod

lemma divCeil_le {n c : ℕ} (hc : 0 < c) : divCeil n c ≤ n := by
  by_contra hlt
  have := (lt_divCeil hc).mp (Nat.lt_of_not_le hlt)
  exact absurd this (Nat.not_lt.mpr (Nat.le_mul_of_pos_right n hc))

lemma prod_gridCounts_le : ∀ {dims chunkDims : List ℕ}, chunkDims.length = dims.length →
    (∀ chunk ∈ chunkDims, chunk ≠ 0) → (gridCounts dims chunkDims).prod ≤ dims.prod
  | [], [], _, _ => le_rfl
  | dim :: dims, chunk :: chunkDims, hlen, hpos => by
    rw [forall_mem_cons] at hpos
    exact Nat.mul_le_mul (divCeil_le (Nat.pos_of_ne_zero hpos.1))
      (prod_gridCounts_le (Nat.succ.inj hlen) hpos.2)

lemma sum_min {c : ℕ} (hc : 0 < c) (n : ℕ) :
    ((range (divCeil n c)).map fun i => min c (n - i * c)).sum = n := by
  have hsum : ∀ k, ((range k).map fun i => min c (n - i * c)).sum = min n (k * c) := by
    intro k
    induction k with
    | zero => simp
    | succ k ih =>
      rw [range_succ, map_append, sum_append, ih, map_singleton,
        sum_singleton, Nat.add_mul, Nat.one_mul]
      omega
  have hall : n ≤ divCeil n c * c := by
    by_contra hlt
    exact absurd ((lt_divCeil hc).mpr (Nat.lt_of_not_le hlt)) (Nat.lt_irrefl _)
  rw [hsum, Nat.min_eq_left hall]

lemma exists_perm_map {α β : Type} {f : α → β} {g : β → α} {l : List α} {m : List β}
    (hinverse : ∀ a ∈ l, g (f a) = a) (h : m.Perm (l.map f)) :
    ∃ l' : List α, l'.Perm l ∧ m = l'.map f := by
  refine ⟨m.map g, ?_, ?_⟩
  · have hid : l.map (g ∘ f) = l.map id := map_congr_left hinverse
    have hperm := h.map g
    rwa [map_map, hid, map_id] at hperm
  · rw [map_map]
    conv_lhs => rw [← map_id m]
    apply map_congr_left
    intro b hb
    obtain ⟨a, ha, rfl⟩ := mem_map.mp (h.mem_iff.mp hb)
    rw [Function.comp_apply, hinverse a ha, id]

section Coverage

variable {dims chunkDims : List ℕ}

/-- The chunks of a dense grid cover every element once. -/
lemma sum_contribution (hrank : chunkDims.length = dims.length) (hpos : ∀ c ∈ chunkDims, c ≠ 0) :
    ((cells (gridCounts dims chunkDims)).map (contribution chunkDims dims)).sum = dims.prod := by
  have hfactors := sum_cells (fun (b : ℕ × ℕ) c => min b.1 (b.2 - c * b.1)) (chunkDims.zip dims)
    (gridCounts dims chunkDims) (by simp [gridCounts, Nat.min_comm])
  refine hfactors.trans (congrArg prod ?_)
  apply ext_getElem (by simp [gridCounts, hrank])
  intro i hi hdim
  have hchunk : i < chunkDims.length := by rwa [hrank]
  simp only [gridCounts, getElem_zipWith, getElem_zip]
  exact sum_min (Nat.pos_of_ne_zero (hpos _ (getElem_mem hchunk))) _

/-- The counts are those of nonzero chunk dimensions and of extents whose running products fit. -/
lemma coverageCounts_eq_some : ∀ {chunkDims dims : List ℕ}, chunkDims.length = dims.length →
    ∀ {a b c : ℕ} {counts : ℕ × ℕ × ℕ}, b < 2 ^ 64 →
    coverageCounts chunkDims dims (a, b, c) = some counts →
    (∀ chunk ∈ chunkDims, chunk ≠ 0) ∧ ∀ k, b * (dims.take k).prod < 2 ^ 64
  | [], [], _, _, _, _, _, hb, _ => by simpa using hb
  | chunk :: chunkDims, dim :: dims, hlen, a, b, c, counts, hb, h => by
    obtain ⟨hne, h⟩ := Option.ite_none_left_eq_some.mp h
    obtain ⟨a', -, h⟩ := Option.bind_eq_some_iff.mp h
    obtain ⟨b', hb', h⟩ := Option.bind_eq_some_iff.mp h
    obtain ⟨c', -, h⟩ := Option.bind_eq_some_iff.mp h
    obtain ⟨hlt, rfl⟩ := checkedMul_eq_some.mp hb'
    obtain ⟨hpos, hfits⟩ := coverageCounts_eq_some (Nat.succ.inj hlen) hlt h
    refine ⟨forall_mem_cons.mpr ⟨hne, hpos⟩, fun k => ?_⟩
    cases k with
    | zero => simpa using hb
    | succ k =>
      rw [take_succ_cons, prod_cons, ← Nat.mul_assoc]
      exact hfits k

/-- Coverage is shown only where no chunk dimension is zero and the extents can be counted. -/
lemma counted_of_coverage (hrank : chunkDims.length = dims.length) {coords : List (List ℕ)}
    (h : (DenseCoverage.new coords chunkDims dims).isSome) :
    (∀ chunk ∈ chunkDims, chunk ≠ 0) ∧ ∀ k, (dims.take k).prod < 2 ^ 64 := by
  obtain ⟨_, h⟩ := Option.isSome_iff_exists.mp h
  obtain ⟨-, h⟩ := Option.ite_none_left_eq_some.mp h
  obtain ⟨counts, hcounts, -⟩ := Option.bind_eq_some_iff.mp h
  simpa using coverageCounts_eq_some hrank (by decide) hcounts

lemma coverageCounts_eq : ∀ {chunkDims dims : List ℕ}, chunkDims.length = dims.length →
    (∀ chunk ∈ chunkDims, chunk ≠ 0) → ∀ {a b c : ℕ}, a * chunkDims.prod < 2 ^ 64 →
    (∀ k, b * (dims.take k).prod < 2 ^ 64) → c ≤ b →
    coverageCounts chunkDims dims (a, b, c) =
      some (a * chunkDims.prod, b * dims.prod, c * (gridCounts dims chunkDims).prod)
  | [], [], _, _, a, b, c, _, _, _ => by simp [coverageCounts, gridCounts]
  | chunk :: chunkDims, dim :: dims, hlen, hpos, a, b, c, ha, hb, hc => by
    rw [forall_mem_cons] at hpos
    have hchunk : 0 < chunk := Nat.pos_of_ne_zero hpos.1
    have hprod : 0 < chunkDims.prod :=
      prod_pos fun x hx => Nat.pos_of_ne_zero (hpos.2 x hx)
    rw [prod_cons, ← Nat.mul_assoc] at ha
    have hb' : ∀ k, b * dim * (dims.take k).prod < 2 ^ 64 := by
      intro k
      have := hb (k + 1)
      rwa [take_succ_cons, prod_cons, ← Nat.mul_assoc] at this
    have hslots : c * divCeil dim chunk ≤ b * dim := Nat.mul_le_mul hc (divCeil_le hchunk)
    have hdim : b * dim < 2 ^ 64 := by
      have := hb' 0
      rwa [take_zero, prod_nil, Nat.mul_one] at this
    have helements : a * chunk < 2 ^ 64 := lt_of_le_of_lt (Nat.le_mul_of_pos_right _ hprod) ha
    rw [coverageCounts, if_neg hpos.1, checkedMul_eq_some.mpr ⟨helements, rfl⟩,
      checkedMul_eq_some.mpr ⟨hdim, rfl⟩, checkedMul_eq_some.mpr ⟨hslots.trans_lt hdim, rfl⟩]
    show coverageCounts chunkDims dims _ = _
    rw [coverageCounts_eq (Nat.succ.inj hlen) hpos.2 ha hb' hslots, prod_cons, prod_cons,
      Nat.mul_assoc, Nat.mul_assoc]
    show _ = some (_, _, c * (divCeil dim chunk * _))
    rw [Nat.mul_assoc]
    rfl

lemma coveredSlot_scaled : ∀ {chunkDims dims cell : List ℕ}, chunkDims.length = dims.length →
    (∀ chunk ∈ chunkDims, chunk ≠ 0) → Within cell (gridCounts dims chunkDims) → ∀ {s t : ℕ},
    s * (gridCounts dims chunkDims).prod + number (gridCounts dims chunkDims) cell < 2 ^ 64 →
    t * chunkDims.prod < 2 ^ 64 →
    coveredSlot (scaled chunkDims cell) chunkDims dims (s, t) =
      some (s * (gridCounts dims chunkDims).prod + number (gridCounts dims chunkDims) cell,
        t * contribution chunkDims dims cell)
  | [], [], _, _, _, h, s, t, _, _ => by
    cases h
    simp [coveredSlot, scaled, gridCounts, number, contribution]
  | chunk :: chunkDims, dim :: dims, _, hlen, hpos, h, s, t, hs, ht => by
    rw [forall_mem_cons] at hpos
    cases h with
    | @cons d _ cell _ hd hcell =>
      have hchunk : 0 < chunk := Nat.pos_of_ne_zero hpos.1
      have hcounts : 0 < (gridCounts dims chunkDims).prod := Within.prod_pos hcell
      have hstart : d * chunk < dim := (lt_divCeil hchunk).mp hd
      change s * (divCeil dim chunk * (gridCounts dims chunkDims).prod) +
        (d * (gridCounts dims chunkDims).prod + number (gridCounts dims chunkDims) cell) < 2 ^ 64 at hs
      have hsplit : s * (divCeil dim chunk * (gridCounts dims chunkDims).prod) +
          (d * (gridCounts dims chunkDims).prod + number (gridCounts dims chunkDims) cell) =
          (s * divCeil dim chunk + d) * (gridCounts dims chunkDims).prod +
            number (gridCounts dims chunkDims) cell := by ring
      have hslot : s * divCeil dim chunk + d < 2 ^ 64 := by
        have := Nat.le_mul_of_pos_right (s * divCeil dim chunk + d) hcounts
        omega
      rw [prod_cons, ← Nat.mul_assoc] at ht
      have hmin : t * min chunk (dim - d * chunk) ≤ t * chunk :=
        Nat.mul_le_mul_left _ (Nat.min_le_left _ _)
      have ht' : t * min chunk (dim - d * chunk) * chunkDims.prod < 2 ^ 64 :=
        (Nat.mul_le_mul_right _ hmin).trans_lt ht
      have hone : t * min chunk (dim - d * chunk) < 2 ^ 64 :=
        (Nat.le_mul_of_pos_right _ (prod_pos fun x hx =>
          Nat.pos_of_ne_zero (hpos.2 x hx))).trans_lt ht'
      show coveredSlot (d * chunk :: scaled chunkDims cell) _ _ _ = _
      rw [coveredSlot, if_neg (by simpa using hstart), Nat.mul_div_cancel _ hchunk,
        checkedMul_eq_some.mpr ⟨by omega, rfl⟩]
      show (checkedAdd (s * divCeil dim chunk) d >>= _) = _
      rw [checkedAdd_eq_some.mpr ⟨hslot, rfl⟩]
      show (checkedMul t (min chunk (dim - d * chunk)) >>= _) = _
      rw [checkedMul_eq_some.mpr ⟨hone, rfl⟩]
      show coveredSlot (scaled chunkDims cell) chunkDims dims _ = _
      rw [coveredSlot_scaled (Nat.succ.inj hlen) hpos.2 hcell (hsplit ▸ hs) ht', ← hsplit,
        Nat.mul_assoc]
      rfl

lemma exists_cell_of_coveredSlot : ∀ {chunkDims dims coord : List ℕ},
    chunkDims.length = dims.length → coord.length = dims.length →
    (∀ chunk ∈ chunkDims, chunk ≠ 0) → ∀ {s r : ℕ × ℕ},
    coveredSlot coord chunkDims dims s = some r →
    ∃ cell, Within cell (gridCounts dims chunkDims) ∧ coord = scaled chunkDims cell
  | [], [], [], _, _, _, _, _, _ => ⟨[], .nil, rfl⟩
  | chunk :: chunkDims, dim :: dims, offset :: coord, hlen, hcoord, hpos, (s, t), r, h => by
    rw [forall_mem_cons] at hpos
    simp only [coveredSlot, Option.ite_none_left_eq_some, not_or, not_not, Nat.not_le,
      Option.bind_eq_bind, Option.bind_eq_some_iff] at h
    obtain ⟨hin, -, -, slot, -, t', -, h⟩ := h
    obtain ⟨cell, hcell, rfl⟩ := exists_cell_of_coveredSlot (Nat.succ.inj hlen)
      (Nat.succ.inj hcoord) hpos.2 h
    have hscale : offset / chunk * chunk = offset :=
      Nat.div_mul_cancel (Nat.dvd_of_mod_eq_zero hin.1)
    refine ⟨offset / chunk :: cell,
      .cons ((lt_divCeil (Nat.pos_of_ne_zero hpos.1)).mpr (by rw [hscale]; exact hin.2)) hcell, ?_⟩
    show offset :: _ = offset / chunk * chunk :: _
    rw [hscale]
    rfl

variable (hrank : chunkDims.length = dims.length) (hpos : ∀ chunk ∈ chunkDims, chunk ≠ 0)
  (hslots : (gridCounts dims chunkDims).prod < 2 ^ 64) (hchunk : chunkDims.prod < 2 ^ 64)

include hrank hpos hslots hchunk

lemma coveredSlot_cell {cell : List ℕ} (h : Within cell (gridCounts dims chunkDims)) :
    coveredSlot (scaled chunkDims cell) chunkDims dims (0, 1) =
      some (number (gridCounts dims chunkDims) cell, contribution chunkDims dims cell) := by
  have hslot := coveredSlot_scaled hrank hpos h
    (by rw [Nat.zero_mul, Nat.zero_add]; exact (number_lt h).trans hslots)
    (by rw [Nat.one_mul]; exact hchunk)
  rwa [Nat.zero_mul, Nat.zero_add, Nat.one_mul] at hslot

lemma coveredElements_scaled {cs : List (List ℕ)} {seen : List ℕ} {covered : ℕ}
    (hcs : ∀ cell ∈ cs, Within cell (gridCounts dims chunkDims) ∧
    number (gridCounts dims chunkDims) cell ∉ seen)
    (hnodup : (cs.map (number (gridCounts dims chunkDims))).Nodup)
    (hfits : covered + (cs.map (contribution chunkDims dims)).sum < 2 ^ 64) :
    coveredElements chunkDims dims (gridCounts dims chunkDims).prod (cs.map (scaled chunkDims)) seen
    covered = some (covered + (cs.map (contribution chunkDims dims)).sum) := by
  induction cs generalizing seen covered with
  | nil => rfl
  | cons cell cs ih =>
    obtain ⟨hcell, hunseen⟩ := hcs cell (by simp)
    rw [map_cons, nodup_cons] at hnodup
    rw [map_cons, sum_cons, ← Nat.add_assoc] at hfits
    rw [map_cons (f := contribution chunkDims dims), sum_cons, ← Nat.add_assoc]
    have hword : number (gridCounts dims chunkDims) cell / 64 <
        divCeil (gridCounts dims chunkDims).prod 64 :=
      (lt_divCeil (by decide)).mpr ((Nat.div_mul_le_self _ _).trans_lt (number_lt hcell))
    rw [map_cons, coveredElements,
      if_neg (by rw [length_scaled hrank.ge hcell]; simp),
      coveredSlot_cell hrank hpos hslots hchunk hcell]
    show (if _ then _ else _) = _
    rw [if_neg (Nat.not_le.mpr hword), if_neg (by simpa using hunseen),
      checkedAdd_eq_some.mpr ⟨(Nat.le_add_right _ _).trans_lt hfits, rfl⟩]
    apply ih (fun c hc => ⟨(hcs c (by simp [hc])).1, ?_⟩) hnodup.2 hfits
    rw [mem_cons, not_or]
    exact ⟨fun heq => hnodup.1 (heq ▸ mem_map_of_mem hc), (hcs c (by simp [hc])).2⟩

lemma coveredElements_eq_some {coords : List (List ℕ)} : ∀ {seen : List ℕ} {covered v : ℕ},
    coveredElements chunkDims dims (gridCounts dims chunkDims).prod coords seen covered = some v →
    ∃ cs : List (List ℕ), coords = cs.map (scaled chunkDims) ∧
      (∀ cell ∈ cs, Within cell (gridCounts dims chunkDims) ∧
        number (gridCounts dims chunkDims) cell ∉ seen) ∧
      (cs.map (number (gridCounts dims chunkDims))).Nodup := by
  induction coords with
  | nil =>
    intro seen covered v _
    exact ⟨[], rfl, by simp, nodup_nil⟩
  | cons coord coords ih =>
    intro seen covered v h
    rw [coveredElements, Option.ite_none_left_eq_some] at h
    obtain ⟨hlen, h⟩ := h
    obtain ⟨⟨slot, amount⟩, hslot, h⟩ := Option.bind_eq_some_iff.mp h
    obtain ⟨cell, hcell, rfl⟩ :=
      exists_cell_of_coveredSlot hrank (not_not.mp hlen) hpos hslot
    rw [coveredSlot_cell hrank hpos hslots hchunk hcell] at hslot
    cases hslot
    simp only [Option.ite_none_left_eq_some] at h
    obtain ⟨-, hunseen, h⟩ := h
    obtain ⟨covered', -, h⟩ := Option.bind_eq_some_iff.mp h
    obtain ⟨cs, rfl, hcs, hnodup⟩ := ih h
    refine ⟨cell :: cs, rfl, ?_, ?_⟩
    · exact forall_mem_cons.mpr ⟨⟨hcell, by simpa using hunseen⟩, fun c hc =>
        ⟨(hcs c hc).1, fun hmem => (hcs c hc).2 (mem_cons_of_mem _ hmem)⟩⟩
    · rw [map_cons, nodup_cons]
      refine ⟨fun hmem => ?_, hnodup⟩
      obtain ⟨c, hc, heq⟩ := mem_map.mp hmem
      exact (hcs c hc).2 (by rw [heq]; exact mem_cons_self)

end Coverage

/-- **Coverage is shown for the dense grids**, where the elements of the dataset and of a chunk can be
counted. -/
theorem coverage_isSome_iff {dims chunkDims : List ℕ} (hrank : chunkDims.length = dims.length)
    (hdims : dims ≠ []) (hfits : ∀ k, (dims.take k).prod < 2 ^ 64) (hchunk : chunkDims.prod < 2 ^ 64)
    (infos : List ChunkInfo) :
    (DenseCoverage.new (infos.map (ChunkInfo.coord dims.length)) chunkDims dims).isSome ↔
      Dense infos dims chunkDims := by
  have hchunks : chunkDims ≠ [] := fun h => hdims (length_eq_zero_iff.mp (by rw [← hrank, h]; rfl))
  have htake : chunkDims.take dims.length = chunkDims := take_of_length_le hrank.le
  by_cases hpos : ∀ chunk ∈ chunkDims, chunk ≠ 0
  swap
  · exact iff_of_false (fun h => hpos (counted_of_coverage hrank h).1) (fun h => hpos (htake ▸ h.1))
  unfold DenseCoverage.new Dense
  rw [if_neg (by simp [hrank, hchunks]), htake]
  have hone : ∀ k, 1 * (dims.take k).prod < 2 ^ 64 := fun k => by rw [Nat.one_mul]; exact hfits k
  have hcounts := coverageCounts_eq hrank hpos (by rw [Nat.one_mul]; exact hchunk) hone le_rfl
  simp only [Nat.one_mul] at hcounts
  have helements : dims.prod < 2 ^ 64 := by
    have := hfits dims.length
    rwa [take_length] at this
  have hslots := (prod_gridCounts_le hrank hpos).trans_lt helements
  have hsum := sum_contribution hrank hpos
  rw [hcounts]
  show (if _ then _ else _ : Option DenseCoverage).isSome ↔ _
  constructor
  · intro h
    obtain ⟨_, h⟩ := Option.isSome_iff_exists.mp h
    obtain ⟨hlen, h⟩ := Option.ite_none_left_eq_some.mp h
    rw [not_not, length_map] at hlen
    obtain ⟨v, hcovered, -⟩ := Option.bind_eq_some_iff.mp h
    obtain ⟨cs, hcs, hwithin, hnodup⟩ :=
      coveredElements_eq_some hrank hpos hslots hchunk hcovered
    have hperm : cs.Perm (cells (gridCounts dims chunkDims)) := by
      apply ((hnodup.of_map _).subperm fun cell hcell =>
        mem_cells.mpr (hwithin cell hcell).1).perm_of_length_le
      rw [length_cells, ← hlen, ← length_map (ChunkInfo.coord dims.length), hcs,
        length_map]
    refine ⟨hpos, ?_⟩
    rw [hcs]
    exact hperm.map _
  · rintro ⟨-, hperm⟩
    have hunscale : ∀ cell ∈ cells (gridCounts dims chunkDims),
        zipWith (· / ·) (scaled chunkDims cell) chunkDims = cell :=
      fun cell hcell => unscaled_scaled hrank.ge (by rwa [htake]) (mem_cells.mp hcell)
    obtain ⟨cs, hcs, hcoords⟩ := exists_perm_map (g := fun coord => zipWith (· / ·) coord chunkDims)
      hunscale hperm
    have hnumbers : (cs.map (number (gridCounts dims chunkDims))).Nodup := by
      rw [(hcs.map _).nodup_iff, map_number_cells]
      exact nodup_range
    have htotal : (cs.map (contribution chunkDims dims)).sum = dims.prod := by
      rw [(hcs.map _).sum_eq, hsum]
    rw [if_neg (by rw [hcoords, length_map, hcs.length_eq, length_cells]; simp), hcoords,
      coveredElements_scaled hrank hpos hslots hchunk
        (fun cell hcell => ⟨mem_cells.mp (hcs.mem_iff.mp hcell), not_mem_nil⟩) hnumbers
        (by rw [Nat.zero_add, htotal]; exact helements), Nat.zero_add, htotal]
    show (if _ then _ else _ : Option DenseCoverage).isSome
    rw [if_neg (by simp)]
    rfl

/-- The plan agrees with the coverage that the chunks prove, in whatever order the index lists them,
if the elements of the dataset and of a chunk can be counted. -/
def Agrees (dims chunkDims : List ℕ) : Prop :=
  chunkDims.length = dims.length → dims ≠ [] → dims.prod < 2 ^ 64 → chunkDims.prod < 2 ^ 64 →
    ∀ infos chunks : List ChunkInfo, chunks.Perm infos →
      ((DenseCoverage.new (chunks.map (ChunkInfo.coord dims.length)) chunkDims dims).isSome ↔
        ∃ order, planDenseGrid infos dims chunkDims = .ok (some order))

variable {dims chunkDims : List ℕ}

/-- An empty grid has a plan, so that agreement there means that the coverage counts its extents. -/
lemma take_prod_lt_of_agrees (hpos : ∀ chunk ∈ chunkDims.take dims.length, chunk ≠ 0)
    (hrecognises : Recognises [] dims chunkDims) (hagrees : Agrees dims chunkDims)
    (heq : chunkDims.length = dims.length) (hdims : dims.prod < 2 ^ 64)
    (hchunk : chunkDims.prod < 2 ^ 64) (k : ℕ) : (dims.take k).prod < 2 ^ 64 := by
  by_contra hover
  have hsplit : (dims.take k).prod * (dims.drop k).prod = dims.prod := by
    rw [← prod_append, take_append_drop]
  have hzero : dims.prod = 0 := by
    rcases Nat.eq_zero_or_pos (dims.drop k).prod with hdrop | hdrop
    · rw [← hsplit, hdrop, Nat.mul_zero]
    · have := Nat.le_mul_of_pos_right (dims.take k).prod hdrop
      omega
  have hne : dims ≠ [] := fun h => by simp [h] at hzero
  rw [take_of_length_le heq.le] at hpos
  have hempty : (gridCounts dims chunkDims).prod = 0 :=
    Nat.le_zero.mp (hzero ▸ prod_gridCounts_le heq hpos)
  have hdense : Dense [] dims chunkDims := by
    refine ⟨by rwa [take_of_length_le heq.le], ?_⟩
    rw [gridOffsets, eq_nil_of_length_eq_zero ((length_cells _).trans hempty)]
    exact .refl _
  obtain ⟨result, hplan, hiff, -⟩ := hrecognises
  obtain ⟨order, rfl⟩ := Option.isSome_iff_exists.mp (hiff.mpr hdense)
  have hsome := (hagrees heq hne hdims hchunk [] [] (.refl _)).mpr ⟨order, hplan⟩
  exact hover ((counted_of_coverage heq hsome).2 k)

/-- **A plan is right about every list of chunks, and agrees with the coverage, exactly where the
slots of its grid can be counted** and the running products of the extents fit whenever the element
counts do. -/
theorem planDenseGrid_recognises_iff (hrank : dims.length ≤ chunkDims.length) :
    ((∀ infos, infos.length < 2 ^ 64 → Recognises infos dims chunkDims) ∧ Agrees dims chunkDims) ↔
      ((gridCounts dims chunkDims).prod < 2 ^ 64 ∧ (chunkDims.length = dims.length →
        dims.prod < 2 ^ 64 → chunkDims.prod < 2 ^ 64 → ∀ k, (dims.take k).prod < 2 ^ 64)) ∨
      0 ∈ chunkDims.take dims.length := by
  by_cases hmem : 0 ∈ chunkDims.take dims.length
  · -- neither the plan nor the coverage takes a zero chunk dimension
    have hplan : ∀ infos, planDenseGrid infos dims chunkDims = .ok none := by
      intro infos
      unfold planDenseGrid
      rw [if_neg (Nat.not_lt.mpr hrank), numChunksPerDim_none ⟨0, hmem, rfl⟩]
    refine iff_of_true ⟨fun infos _ => ⟨none, hplan infos, ?_, by simp⟩, ?_⟩ (.inr hmem)
    · simp only [Option.isSome_none, Bool.false_eq_true, false_iff]
      exact fun hdense => hdense.1 0 hmem rfl
    · intro heq _ _ _ infos chunks _
      refine iff_of_false (fun h => ?_) (by simp [hplan])
      exact (counted_of_coverage heq h).1 0 (mem_of_mem_take hmem) rfl
  have hpos : ∀ chunk ∈ chunkDims.take dims.length, chunk ≠ 0 := fun _ hchunk h => hmem (h ▸ hchunk)
  constructor
  · rintro ⟨hrecognises, hagrees⟩
    refine .inl ⟨?_, take_prod_lt_of_agrees hpos (hrecognises [] (by simp)) hagrees⟩
    by_contra hnot
    obtain ⟨infos, hlt, hwrong⟩ := not_recognises_of_ge hrank hpos (Nat.not_lt.mp hnot)
    exact hwrong (hrecognises infos hlt)
  · intro h
    obtain ⟨hslots, hfits⟩ := h.resolve_right hmem
    have hrecognises := recognises_of_lt hrank hpos hslots
    refine ⟨fun infos _ => hrecognises infos, ?_⟩
    intro heq hdims hprod hchunk infos chunks hperm
    obtain ⟨result, hplan, hdense, -⟩ := hrecognises infos
    rw [coverage_isSome_iff heq hdims (hfits heq hprod hchunk) hchunk, hplan]
    have hsame : Dense chunks dims chunkDims ↔ Dense infos dims chunkDims :=
      and_congr_right fun _ => (hperm.map _).congr_left _
    rw [hsame, ← hdense]
    cases result <;> simp

/-- A grid of `2 ^ 64` slots and no chunk: the count wraps to zero, and the plan is that of a dense
grid. With no element at all, the plan is that of the empty grid where the coverage gives up on a
running product. -/
theorem planDenseGrid_accepts_hole :
    (planDenseGrid [] [2 ^ 32, 2 ^ 32] [1, 1] = .ok (some []) ∧
      ¬ Dense [] [2 ^ 32, 2 ^ 32] [1, 1]) ∧
    planDenseGrid [] [2 ^ 40, 2 ^ 40, 0] [1, 1, 1] = .ok (some []) ∧
      DenseCoverage.new [] [1, 1, 1] [2 ^ 40, 2 ^ 40, 0] = none := by
  refine ⟨⟨by decide +kernel, fun h => ?_⟩, by decide +kernel, by decide +kernel⟩
  have hlen := h.2.length_eq
  rw [gridOffsets, length_map, length_map, length_cells] at hlen
  revert hlen
  decide +kernel

theorem planDenseGrid_recognises_iff_square :
    (gridCounts [3, 4] [2, 2]).prod = 4 ∧
      (∀ infos, infos.length < 2 ^ 64 → Recognises infos [3, 4] [2, 2]) ∧ Agrees [3, 4] [2, 2] := by
  refine ⟨rfl, (planDenseGrid_recognises_iff (by decide)).mpr (.inl ⟨by decide, ?_⟩)⟩
  intro _ _ _ k
  rcases k with _ | _ | k
  · decide
  · decide
  · simp

end Hdf5Pure.Chunk
