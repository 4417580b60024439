import Hdf5Pure.Filter.Buffer
import Hdf5Pure.Utils.Writes

/-!
# The shuffle filter

`shuffle_compress_into` and `shuffle_decompress_into` of `pipeline/mod.rs`: the bytes of the elements
are grouped by their position in the element, and bytes beyond the last element are kept. The output
slice starts with whatever the recycled storage holds.
-/

namespace Hdf5Pure.Filter

open List

/-- The writes of `f i j` for `i` below `m` and, inside that loop, `j` below `n`. -/
def nestedWrites (m n : ℕ) (f : ℕ → ℕ → ℕ × UInt8) : List (ℕ × UInt8) :=
  (range m).flatMap fun i => (range n).map fun j => f i j

/-- The loop of `unshuffle_n`: builds each element of `n` bytes and stores it. -/
def unshuffleN (n : ℕ) (data result : Bytes) (numElements : ℕ) : Bytes :=
  performWrites (nestedWrites (result.length / n) n fun i j =>
    let elem := (range n).map fun j => data.getD (j * numElements + i) 0
    (i * n + j, elem.getD j 0)) result

/-- The loop of `shuffle_n`: takes elements of `n` bytes apart. -/
def shuffleN (n : ℕ) (data result : Bytes) (numElements : ℕ) : Bytes :=
  performWrites (nestedWrites (data.length / n) n fun i j =>
    let elem := (data.drop (i * n)).take n
    (j * numElements + i, elem.getD j 0)) result

def shuffleDecompressInto (data : Bytes) (elementSize : ℕ) (result : Bytes) : Bytes :=
  if elementSize ≤ 1 then data
  else
    let numElements := data.length / elementSize
    let prefixLen := data.length - data.length % elementSize
    let result := result.take prefixLen ++ data.drop prefixLen
    match elementSize with
    | 2 => unshuffleN 2 data result numElements
    | 4 => unshuffleN 4 data result numElements
    | 8 => unshuffleN 8 data result numElements
    | 16 => unshuffleN 16 data result numElements
    | _ => performWrites (nestedWrites numElements elementSize fun i j =>
        (i * elementSize + j, data.getD (j * numElements + i) 0)) result

def shuffleCompressInto (data : Bytes) (elementSize : ℕ) (result : Bytes) : Bytes :=
  if elementSize ≤ 1 then data
  else
    let numElements := data.length / elementSize
    let prefixLen := data.length - data.length % elementSize
    let result := result.take prefixLen ++ data.drop prefixLen
    match elementSize with
    | 2 => shuffleN 2 data result numElements
    | 4 => shuffleN 4 data result numElements
    | 8 => shuffleN 8 data result numElements
    | 16 => shuffleN 16 data result numElements
    | _ => performWrites (nestedWrites numElements elementSize fun i j =>
        (j * numElements + i, data.getD (i * elementSize + j) 0)) result

/-! ## The loops -/

variable {n : ℕ} {data result : Bytes}

lemma mem_nestedWrites {m : ℕ} {f : ℕ → ℕ → ℕ × UInt8} {w : ℕ × UInt8} :
    w ∈ nestedWrites m n f ↔ ∃ i < m, ∃ j < n, f i j = w := by
  simp [nestedWrites]

lemma nestedWrites_congr {m : ℕ} {f g : ℕ → ℕ → ℕ × UInt8}
    (h : ∀ i < m, ∀ j < n, f i j = g i j) : nestedWrites m n f = nestedWrites m n g := by
  apply flatMap_congr
  intro i hi
  apply map_congr_left
  intro j hj
  exact h i (mem_range.mp hi) j (mem_range.mp hj)

lemma shuffleN_eq (n : ℕ) (data result : Bytes) :
    shuffleN n data result (data.length / n) =
      performWrites (nestedWrites (data.length / n) n fun i j =>
        (j * (data.length / n) + i, data.getD (i * n + j) 0)) result := by
  unfold shuffleN
  congr 1
  apply nestedWrites_congr
  intro i hi j hj
  simp only [getD_eq_getElem?_getD, getElem?_take_of_lt hj, getElem?_drop]

lemma unshuffleN_eq (n : ℕ) (data result : Bytes) (h : result.length = data.length) :
    unshuffleN n data result (data.length / n) =
      performWrites (nestedWrites (data.length / n) n fun i j =>
        (i * n + j, data.getD (j * (data.length / n) + i) 0)) result := by
  unfold unshuffleN
  rw [h]
  congr 1
  apply nestedWrites_congr
  intro i hi j hj
  simp [getD_eq_getElem?_getD, getElem?_range hj]

lemma shuffleCompressInto_eq (hn : 1 < n) (result : Bytes) :
    shuffleCompressInto data n result =
      performWrites (nestedWrites (data.length / n) n fun i j =>
        (j * (data.length / n) + i, data.getD (i * n + j) 0))
        (result.take (data.length - data.length % n) ++ data.drop (data.length - data.length % n)) := by
  unfold shuffleCompressInto
  rw [if_neg (by omega)]
  split
  · exact shuffleN_eq 2 _ _
  · exact shuffleN_eq 4 _ _
  · exact shuffleN_eq 8 _ _
  · exact shuffleN_eq 16 _ _
  · rfl

lemma shuffleDecompressInto_eq (hn : 1 < n) (h : result.length = data.length) :
    shuffleDecompressInto data n result =
      performWrites (nestedWrites (data.length / n) n fun i j =>
        (i * n + j, data.getD (j * (data.length / n) + i) 0))
        (result.take (data.length - data.length % n) ++ data.drop (data.length - data.length % n)) := by
  have hlen : (result.take (data.length - data.length % n) ++
      data.drop (data.length - data.length % n)).length = data.length := by
    simp only [length_append, length_take, length_drop]
    omega
  unfold shuffleDecompressInto
  rw [if_neg (by omega)]
  split
  · exact unshuffleN_eq 2 _ _ hlen
  · exact unshuffleN_eq 4 _ _ hlen
  · exact unshuffleN_eq 8 _ _ hlen
  · exact unshuffleN_eq 16 _ _ hlen
  · rfl

/-! ## The round trip -/

/-- Where the byte at `k` of `num` elements comes from: the grid of elements and byte positions is
transposed. -/
def transpose (num n k : ℕ) : ℕ := k % num * n + k / num

lemma transpose_lt {num k : ℕ} (hk : k < num * n) : transpose num n k < num * n := by
  have hpos : 0 < num := Nat.pos_of_ne_zero (by rintro rfl; simp at hk)
  have h1 := Nat.mod_lt k hpos
  have h2 : k / num < n := (Nat.div_lt_iff_lt_mul hpos).mpr (by rwa [Nat.mul_comm] at hk)
  calc k % num * n + k / num < k % num * n + n := by omega
    _ = (k % num + 1) * n := by ring
    _ ≤ num * n := Nat.mul_le_mul_right n h1

lemma transpose_transpose {num k : ℕ} (hk : k < num * n) :
    transpose num n (transpose n num k) = k := by
  have hn : 0 < n := Nat.pos_of_ne_zero (by rintro rfl; simp at hk)
  have hdiv : k / n < num := (Nat.div_lt_iff_lt_mul hn).mpr hk
  unfold transpose
  rw [Nat.add_comm (k % n * num), Nat.add_mul_mod_self_right, Nat.mod_eq_of_lt hdiv,
    Nat.add_mul_div_right _ _ ((Nat.zero_le _).trans_lt hdiv), Nat.div_eq_of_lt hdiv, Nat.zero_add,
    Nat.mul_comm]
  exact Nat.div_add_mod k n

/-- A buffer that is filled by transposing whole elements and keeps the trailing bytes. -/
lemma performWrites_transpose {num : ℕ} (hlen : result.length = data.length)
    (hle : num * n ≤ data.length) {writes : List (ℕ × UInt8)}
    (hvalue : ∀ w ∈ writes, w.1 < num * n ∧ w.2 = data.getD (transpose num n w.1) 0)
    (hall : ∀ k < num * n, k ∈ writes.map Prod.fst) :
    performWrites writes (result.take (num * n) ++ data.drop (num * n)) =
      (range data.length).map fun k =>
        if k < num * n then data.getD (transpose num n k) 0 else data.getD k 0 := by
  have hbuffer : (result.take (num * n) ++ data.drop (num * n)).length = data.length := by
    simp only [length_append, length_take, length_drop]
    omega
  rw [performWrites_eq fun k =>
    if k < num * n then data.getD (transpose num n k) 0 else data.getD k 0, hbuffer]
  · intro w hw
    obtain ⟨hlt, heq⟩ := hvalue w hw
    rw [heq, if_pos hlt]
  · intro k hk
    rw [hbuffer] at hk
    by_cases hlt : k < num * n
    · exact .inl (hall k hlt)
    · right
      rw [getElem?_append_right (by rw [length_take]; omega), length_take,
        getElem?_drop, if_neg hlt, getD_eq_getElem?_getD,
        show num * n + (k - min (num * n) result.length) = k by omega,
        getElem?_eq_getElem hk, Option.getD_some]

lemma div_mul_eq (a n : ℕ) : a - a % n = a / n * n := by
  have := Nat.div_add_mod a n
  rw [Nat.mul_comm] at this
  omega

/-- The shuffled bytes, whatever the output slice held. -/
lemma shuffleCompressInto_spec (hn : 1 < n) (h : result.length = data.length) :
    shuffleCompressInto data n result = (range data.length).map fun k =>
      if k < data.length / n * n then data.getD (transpose (data.length / n) n k) 0
      else data.getD k 0 := by
  rw [shuffleCompressInto_eq hn, div_mul_eq]
  apply performWrites_transpose h (Nat.div_mul_le_self _ _)
  · intro w hw
    obtain ⟨i, hi, j, hj, rfl⟩ := mem_nestedWrites.mp hw
    have hlt : j * (data.length / n) + i < data.length / n * n := by
      calc j * (data.length / n) + i < j * (data.length / n) + data.length / n := by omega
        _ = (j + 1) * (data.length / n) := by ring
        _ ≤ n * (data.length / n) := Nat.mul_le_mul_right _ hj
        _ = data.length / n * n := Nat.mul_comm _ _
    refine ⟨hlt, ?_⟩
    show data.getD (i * n + j) 0 = _
    rw [transpose, Nat.add_comm (j * _), Nat.add_mul_mod_self_right, Nat.mod_eq_of_lt hi,
      Nat.add_mul_div_right _ _ (by omega), Nat.div_eq_of_lt hi, Nat.zero_add]
  · intro k hk
    have hpos : 0 < data.length / n := Nat.pos_of_ne_zero (by rintro h0; simp [h0] at hk)
    have hj : k / (data.length / n) < n :=
      (Nat.div_lt_iff_lt_mul hpos).mpr (by rwa [Nat.mul_comm] at hk)
    refine mem_map.mpr ⟨_, mem_nestedWrites.mpr ⟨k % (data.length / n), Nat.mod_lt _ hpos,
      k / (data.length / n), hj, rfl⟩, ?_⟩
    rw [Nat.mul_comm]
    exact Nat.div_add_mod k _

/-- The restored bytes, whatever the output slice held. -/
lemma shuffleDecompressInto_spec (hn : 1 < n) (h : result.length = data.length) :
    shuffleDecompressInto data n result = (range data.length).map fun k =>
      if k < data.length / n * n then data.getD (transpose n (data.length / n) k) 0
      else data.getD k 0 := by
  rw [shuffleDecompressInto_eq hn h, div_mul_eq, Nat.mul_comm]
  apply performWrites_transpose h (by rw [Nat.mul_comm]; exact Nat.div_mul_le_self _ _)
  · intro w hw
    obtain ⟨i, hi, j, hj, rfl⟩ := mem_nestedWrites.mp hw
    have hlt : i * n + j < n * (data.length / n) := by
      calc i * n + j < i * n + n := by omega
        _ = n * (i + 1) := by ring
        _ ≤ n * (data.length / n) := Nat.mul_le_mul_left _ hi
    refine ⟨hlt, ?_⟩
    show data.getD (j * (data.length / n) + i) 0 = _
    rw [transpose, Nat.add_comm (i * n), Nat.add_mul_mod_self_right, Nat.mod_eq_of_lt hj,
      Nat.add_mul_div_right _ _ (by omega), Nat.div_eq_of_lt hj, Nat.zero_add]
  · intro k hk
    have hi : k / n < data.length / n :=
      (Nat.div_lt_iff_lt_mul (by omega)).mpr (by rwa [Nat.mul_comm] at hk)
    refine mem_map.mpr ⟨_, mem_nestedWrites.mpr ⟨k / n, hi, k % n, Nat.mod_lt _ (by omega),
      rfl⟩, ?_⟩
    rw [Nat.mul_comm]
    exact Nat.div_add_mod k n

lemma length_shuffleCompressInto (hn : 1 < n)
    (h : result.length = data.length) : (shuffleCompressInto data n result).length = data.length := by
  rw [shuffleCompressInto_spec hn h, length_map, length_range]

lemma shuffleDecompressInto_shuffleCompressInto {result' : Bytes} (hn : 1 < n)
    (h : result.length = data.length) (h' : result'.length = data.length) :
    shuffleDecompressInto (shuffleCompressInto data n result) n result' = data := by
  have hlen := length_shuffleCompressInto hn h
  rw [shuffleDecompressInto_spec hn (by rw [hlen, h']), hlen]
  apply ext_getElem
  · rw [length_map, length_range]
  · intro k hk hk'
    rw [getElem_map, getElem_range, shuffleCompressInto_spec hn h]
    have hget : ∀ m < data.length, ((range data.length).map fun k =>
        if k < data.length / n * n then data.getD (transpose (data.length / n) n k) 0
        else data.getD k 0).getD m 0 =
        if m < data.length / n * n then data.getD (transpose (data.length / n) n m) 0
        else data.getD m 0 := by
      intro m hm
      rw [getD_eq_getElem?_getD, getElem?_map, getElem?_range hm]
      rfl
    split_ifs with hlt
    · have hm : transpose n (data.length / n) k < data.length / n * n := by
        rw [Nat.mul_comm] at hlt ⊢
        exact transpose_lt hlt
      rw [hget _ (hm.trans_le (Nat.div_mul_le_self _ _)), if_pos hm,
        transpose_transpose hlt, getD_eq_getElem _ _ hk']
    · rw [hget k hk', if_neg hlt, getD_eq_getElem _ _ hk']

end Hdf5Pure.Filter
