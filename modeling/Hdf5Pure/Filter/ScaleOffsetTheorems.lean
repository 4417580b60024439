import Hdf5Pure.Filter.ScaleOffset
import Hdf5Pure.Utils.Checked

/-!
# Integer scale-offset is lossless

The encoder picks a width that holds every offset and, with a fill value, leaves the all-ones offset
free for it. So the decoder restores each element from its offset, its minimum and its width.
-/

namespace Hdf5Pure.Filter.ScaleOffset

open List

/-! ## Elements as numbers -/

variable {size : ℕ} {cd : List UInt32}

lemma leBytes_take {width : ℕ} (h : size ≤ width) (n : ℕ) :
    (leBytes width n).take size = leBytes size n := by
  induction size generalizing width n with
  | zero => rfl
  | succ size ih =>
    obtain ⟨width, rfl⟩ := Nat.exists_eq_succ_of_ne_zero (show width ≠ 0 by omega)
    rw [leBytes, take_succ_cons, ih (by omega), leBytes]

variable {chunk : Bytes} {v : ℤ} {values : List ℤ} {offsets : List ℕ} {order : ByteOrder}

lemma readValue_lt (order : UInt32) (h : chunk.length = size) :
    readValue chunk size order < 2 ^ (size * 8) := by
  have hpow : (2 : ℕ) ^ (size * 8) = 256 ^ size := by
    rw [Nat.mul_comm, pow_mul]
    rfl
  rw [hpow]
  unfold readValue
  rw [take_of_length_le h.le, ← h]
  split_ifs
  · exact leNat_lt chunk
  · exact beNat_lt chunk

lemma writeValue_readValue (order : UInt32) (h : chunk.length = size) (hsize : size ≤ 8) :
    writeValue (readValue chunk size order) size order = chunk := by
  unfold writeValue readValue
  dsimp only
  rw [take_of_length_le h.le, leBytes_take hsize]
  split_ifs
  · rw [← h, leBytes_leNat]
  · rw [beNat, ← h, ← length_reverse, leBytes_leNat, reverse_reverse]

/-- A signed number differs from the unsigned one by a multiple of the range. -/
lemma exists_asSigned_eq (width bits : ℕ) : ∃ k : ℤ, asSigned width bits = bits + 2 ^ width * k := by
  unfold asSigned
  split_ifs
  · exact ⟨0, by ring⟩
  · exact ⟨-1, by ring⟩

/-- Sign extension keeps the bits of the element. -/
lemma signExtend_emod {bits : ℕ} (hsize : size ≤ 8) (h : bits < 2 ^ (size * 8)) :
    signExtend bits size % 2 ^ (size * 8) = bits := by
  have hbits : ((bits : ℕ) : ℤ) % 2 ^ (size * 8) = bits :=
    Int.emod_eq_of_lt (by positivity) (by exact_mod_cast h)
  unfold signExtend
  by_cases h8 : 8 ≤ size
  · obtain ⟨k, hk⟩ := exists_asSigned_eq 64 bits
    rw [if_pos h8, hk, show (2 : ℤ) ^ 64 = 2 ^ (size * 8) by rw [le_antisymm hsize h8],
      Int.add_mul_emod_self_left, hbits]
  rw [if_neg h8]
  dsimp only
  have h64 : size * 8 + (64 - size * 8) = 64 := by omega
  have hshift : bits <<< (64 - size * 8) % 2 ^ 64 = bits * 2 ^ (64 - size * 8) := by
    rw [Nat.shiftLeft_eq]
    apply Nat.mod_eq_of_lt
    calc bits * 2 ^ (64 - size * 8) < 2 ^ (size * 8) * 2 ^ (64 - size * 8) :=
          Nat.mul_lt_mul_of_pos_right h (by positivity)
      _ = 2 ^ 64 := by rw [← pow_add, h64]
  obtain ⟨k, hk⟩ := exists_asSigned_eq 64 (bits * 2 ^ (64 - size * 8))
  -- shifting down leaves the bits and a multiple of the element's range
  have hfactor : asSigned 64 (bits * 2 ^ (64 - size * 8)) =
      (bits + 2 ^ (size * 8) * k) * 2 ^ (64 - size * 8) := by
    rw [hk, show (2 : ℤ) ^ 64 = 2 ^ (size * 8) * 2 ^ (64 - size * 8) by rw [← pow_add, h64]]
    push_cast
    ring
  rw [hshift, Int.shiftRight_eq_div_pow, hfactor]
  push_cast
  rw [Int.mul_ediv_cancel _ (by positivity), Int.add_mul_emod_self_left, hbits]

variable {p : Parms} {signed : Bool} {nelmts : UInt32}

/-- The value of an element determines its bits. -/
lemma readAsI128_emod {input : Bytes} (signed : Bool) {i : ℕ} (hsize : p.size ≤ 8)
    (hlen : ((input.drop (i * p.size)).take p.size).length = p.size) :
    readAsI128 input p signed i % 2 ^ (p.size * 8) =
      readValue ((input.drop (i * p.size)).take p.size) p.size p.order := by
  have hlt := readValue_lt p.order hlen
  unfold readAsI128
  dsimp only
  split_ifs
  · exact signExtend_emod hsize hlt
  · exact Int.emod_eq_of_lt (by positivity) (by exact_mod_cast hlt)

lemma and_widthMask (p : Parms) (n : ℕ) : n &&& p.widthMask = n % 2 ^ (p.size * 8) :=
  Nat.and_two_pow_sub_one_eq_mod n _

lemma fillAsI128_emod {bits : ℕ} (hsize : p.size ≤ 8) (h : bits < 2 ^ (p.size * 8)) :
    fillAsI128 p signed bits % 2 ^ (p.size * 8) = bits := by
  unfold fillAsI128
  split_ifs
  · exact signExtend_emod hsize h
  · rw [and_widthMask, Nat.mod_eq_of_lt h]
    exact Int.emod_eq_of_lt (by positivity) (by exact_mod_cast h)

/-- An offset and the minimum give back the bits of the value. -/
lemma restore_offset {min : ℤ} (hsize : p.size ≤ 8) (hle : min ≤ v) :
    (((v - min).toNat + (min % 2 ^ 64).toNat) % 2 ^ 64 &&& p.widthMask : ℕ) =
      v % 2 ^ (p.size * 8) := by
  have hdvd : (2 : ℕ) ^ (p.size * 8) ∣ 2 ^ 64 := pow_dvd_pow 2 (by omega)
  rw [and_widthMask, Nat.mod_mod_of_dvd _ hdvd]
  push_cast
  rw [Int.toNat_of_nonneg (by omega), Int.toNat_of_nonneg (Int.emod_nonneg _ (by norm_num)),
    Int.add_emod, Int.emod_emod_of_dvd _ (by exact_mod_cast hdvd), ← Int.add_emod]
  congr 1
  omega

/-! ## The range of the values -/

lemma foldl_widen_spec (values : List ℤ) (range : ℤ × ℤ) :
    (values.foldl widen range).1 ≤ range.1 ∧ range.2 ≤ (values.foldl widen range).2 ∧
      ∀ v ∈ values, (values.foldl widen range).1 ≤ v ∧ v ≤ (values.foldl widen range).2 := by
  induction values generalizing range with
  | nil => exact ⟨le_rfl, le_rfl, fun v hv => absurd hv not_mem_nil⟩
  | cons w values ih =>
    have hw : (widen range w).1 ≤ range.1 ∧ (widen range w).1 ≤ w ∧ range.2 ≤ (widen range w).2 ∧
        w ≤ (widen range w).2 := by
      unfold widen
      split_ifs <;> omega
    obtain ⟨hlo, hhi, hall⟩ := ih (widen range w)
    refine ⟨hlo.trans hw.1, hw.2.2.1.trans hhi, ?_⟩
    intro v hv
    rcases mem_cons.mp hv with rfl | hv
    · exact ⟨hlo.trans hw.2.1, hw.2.2.2.trans hhi⟩
    · exact hall v hv

lemma foldl_widenUnless_eq (values : List ℤ) (fv : ℤ) (range : ℤ × ℤ) :
    values.foldl (widenUnless fv) (some range) =
      some ((values.filter (· ≠ fv)).foldl widen range) := by
  induction values generalizing range with
  | nil => rfl
  | cons w values ih =>
    rw [foldl_cons, widenUnless]
    by_cases hw : w = fv
    · rw [if_pos hw, ih, filter_cons_of_neg (by simp [hw])]
    · rw [if_neg hw, filter_cons_of_pos (by simp [hw]), foldl_cons]
      exact ih _

/-- Skipping the fill values is taking the range of the others. -/
lemma valueRange_some (values : List ℤ) (fv : ℤ) :
    valueRange values (some fv) = valueRange (values.filter (· ≠ fv)) none := by
  induction values with
  | nil => rfl
  | cons w values ih =>
    unfold valueRange at ih ⊢
    dsimp only at ih ⊢
    rw [foldl_cons, widenUnless]
    by_cases hw : w = fv
    · rw [if_pos hw, filter_cons_of_neg (by simp [hw])]
      exact ih
    · rw [if_neg hw, filter_cons_of_pos (by simp [hw])]
      rw [foldl_widenUnless_eq, Option.getD_some]

lemma valueRange_none_spec (hv : v ∈ values) :
    (valueRange values none).1 ≤ v ∧ v ≤ (valueRange values none).2 := by
  cases values with
  | nil => exact absurd hv not_mem_nil
  | cons first rest =>
    obtain ⟨hlo, hhi, hall⟩ := foldl_widen_spec rest (first, first)
    rcases mem_cons.mp hv with rfl | hv
    · exact ⟨hlo, hhi⟩
    · exact hall v hv

/-- Every value but the fill value is in the range. -/
lemma valueRange_spec {fill : Option ℤ} (hv : v ∈ values) (hfill : some v ≠ fill) :
    (valueRange values fill).1 ≤ v ∧ v ≤ (valueRange values fill).2 := by
  cases fill with
  | none => exact valueRange_none_spec hv
  | some fv =>
    rw [valueRange_some]
    apply valueRange_none_spec
    rw [mem_filter]
    refine ⟨hv, ?_⟩
    simpa using hfill

/-! ## The width of the offsets -/

lemma log2Loop_spec {fuel val v num : ℕ} (hfuel : val < 2 ^ fuel) (hnum : num < (val + 1) * 2 ^ v) :
    ∃ w, log2Loop fuel val v (2 ^ v) = (w, 2 ^ w) ∧ num < 2 ^ (w + 1) := by
  induction fuel generalizing val v with
  | zero =>
    refine ⟨v, rfl, hnum.trans_le ?_⟩
    rw [pow_succ, show val = 0 by omega]
    omega
  | succ fuel ih =>
    have hhalf : val >>> 1 = val / 2 := Nat.shiftRight_eq_div_pow val 1
    rw [log2Loop, hhalf]
    split_ifs with hzero
    · refine ⟨v, rfl, hnum.trans_le ?_⟩
      rw [pow_succ, Nat.mul_comm]
      exact Nat.mul_le_mul_left _ (by omega)
    rw [show (2 : ℕ) ^ v <<< 1 = 2 ^ (v + 1) from Nat.shiftLeft_eq _ _]
    apply ih
    · rw [pow_succ] at hfuel
      omega
    · refine hnum.trans_le ?_
      rw [pow_succ, Nat.mul_comm (2 ^ v), ← Nat.mul_assoc]
      exact Nat.mul_le_mul_right _ (by omega)

lemma le_two_pow_ceilLog2 {num : ℕ} (h : num < 2 ^ 64) : num ≤ 2 ^ ceilLog2 num := by
  obtain ⟨w, heq, hlt⟩ := log2Loop_spec h (show num < (num + 1) * 2 ^ 0 by omega)
  rw [pow_zero] at heq
  unfold ceilLog2
  rw [heq]
  dsimp only
  split_ifs with hpow
  · exact hpow.le
  · exact hlt.le

/-! ## What an outcome shows -/

def Outcome.bytes (outcome : Outcome) (input : Bytes) : Bytes :=
  match outcome with
  | unchanged => input
  | view start stop => (input.take stop).drop start
  | output bytes => bytes

def Outcome.Fits (outcome : Outcome) (input : Bytes) : Prop :=
  match outcome with
  | view start stop => start ≤ stop ∧ stop ≤ input.length
  | unchanged | output _ => True

lemma Outcome.apply_spec {outcome : Outcome} {current : FilterBuffer} (spare : Bytes)
    (h : outcome.Fits current.asSlice) :
    ∃ view spare', outcome.apply current spare = .ok (view, spare') ∧
      view.asSlice = outcome.bytes current.asSlice := by
  cases outcome with
  | unchanged => exact ⟨_, _, rfl, rfl⟩
  | view start stop =>
    obtain ⟨view, heq, hview⟩ := FilterBuffer.asSlice_narrow h.1 h.2
    refine ⟨view, spare, ?_, hview⟩
    rw [Outcome.apply, heq]
    rfl
  | output bytes => exact ⟨_, _, rfl, FilterBuffer.asSlice_ownedVec bytes⟩

/-! ## The header -/

@[simp] lemma length_writeHeader (minbits minval : ℕ) :
    (writeHeader minbits minval).length = headerLen := by
  simp [writeHeader, headerLen]

/-- The decoder finds the width and the minimum in the header. -/
lemma decodeChunk_writeHeader {float : FloatScale} {minbits minval sizeOut : ℕ}
    (hbits : minbits ≤ p.size * 8) (hsize : p.size ≤ 8) (hval : minval < 2 ^ 64)
    (rest : Bytes) :
    decodeChunk float (writeHeader minbits minval ++ rest) p cd sizeOut =
      decodePayload float (writeHeader minbits minval ++ rest) p cd minbits minval sizeOut := by
  have hlen : (writeHeader minbits minval ++ rest).length = headerLen + rest.length := by
    rw [length_append, length_writeHeader]
  have htake : leNat ((writeHeader minbits minval ++ rest).take 4) = minbits := by
    have : (writeHeader minbits minval ++ rest).take 4 = leBytes 4 minbits := by
      unfold writeHeader
      rw [append_assoc, append_assoc, append_assoc,
        take_left' (length_leBytes 4 minbits)]
    rw [this]
    exact leNat_leBytes_of_lt (by omega)
  have hget : (writeHeader minbits minval ++ rest).getD 4 0 = 8 := rfl
  have hdrop : leNat (((writeHeader minbits minval ++ rest).drop 5).take 8) = minval := by
    have : ((writeHeader minbits minval ++ rest).drop 5).take 8 = leBytes 8 minval := by
      unfold writeHeader
      rw [append_assoc, append_assoc,
        drop_left' (by rw [length_append, length_leBytes]; rfl),
        take_left' (length_leBytes 8 minval)]
    rw [this]
    exact leNat_leBytes_of_lt hval
  unfold decodeChunk
  rw [hlen, htake, hget, if_neg (by unfold headerLen; omega), if_neg (by omega),
    if_neg (by unfold headerLen; show ¬ 21 + rest.length < 5 + min 8 8; omega)]
  show decodePayload float _ p cd minbits (leNat (((writeHeader minbits minval ++ rest).drop 5).take 8))
    sizeOut = _
  rw [hdrop]

/-! ## Restoring the elements -/

/-- Reconstruction restores the offsets one after the other. -/
lemma reconstructFrom_packOffsets (p : Parms) {minbits : ℕ} (minval : ℕ) (filval : Option ℕ)
    (hmin : 1 ≤ minbits) (hmax : minbits ≤ 64) (h : ∀ w ∈ offsets, w < 2 ^ minbits) (a b : List ℕ)
    (hab : offsets = a ++ b) :
    reconstructFrom (packOffsets offsets minbits offsets.length) p minbits minval filval b.length
        (a.length * minbits) =
      b.flatMap fun d => writeValue (restore p minbits minval filval d) p.size p.order := by
  -- by induction on the offsets that are still to be read
  induction b generalizing a with
  | nil => rfl
  | cons d b ih =>
    have hread : readBits (packOffsets offsets minbits offsets.length) (a.length * minbits) minbits =
        d := by
      rw [hab] at h ⊢
      exact readBits_packOffsets hmin hmax h
    have hrest := ih (a ++ [d]) (by rw [hab, append_assoc]; rfl)
    rw [length_append, length_singleton, Nat.succ_mul] at hrest
    rw [length_cons, reconstructFrom, hread, flatMap_cons, hrest]

lemma flatMap_elements {n : ℕ} {input : Bytes} (h : input.length = n * size) :
    ((range n).flatMap fun i => (input.drop (i * size)).take size) = input := by
  induction n generalizing input with
  | zero =>
    rw [Nat.zero_mul] at h
    rw [eq_nil_of_length_eq_zero h]
    rfl
  | succ n ih =>
    rw [Nat.succ_mul] at h
    rw [range_succ_eq_map, flatMap_cons, flatMap_map, Nat.zero_mul, drop_zero]
    have htail : ((range n).flatMap fun i => (input.drop ((i + 1) * size)).take size) =
        input.drop size := by
      rw [← @ih (input.drop size) (by rw [length_drop]; omega)]
      congr 1
      funext i
      rw [drop_drop, Nat.succ_mul, Nat.add_comm]
    show _ ++ ((range n).flatMap fun i => (input.drop ((i + 1) * size)).take size) = input
    rw [htail, take_append_drop]

lemma length_element {n i : ℕ} {input : Bytes} (h : input.length = n * size)
    (hi : i < n) : ((input.drop (i * size)).take size).length = size := by
  have : (i + 1) * size ≤ n * size := Nat.mul_le_mul_right size hi
  rw [Nat.succ_mul] at this
  rw [length_take, length_drop]
  omega

/-! ## Integer parameters -/

/-- Parameters of integer mode, with room for a fill value. -/
structure IntegerParms (cd : List UInt32) (p : Parms) : Prop where
  parse : Parms.parse cd = .ok p
  scalarClass : p.scalarClass = clsInteger
  scaleType : p.scaleType = soInt
  size_pos : 1 ≤ p.size
  size_le : p.size ≤ 8
  length : parmFilval + 2 ≤ cd.length

lemma length_readFillFrom_le (cd : List UInt32) (size fuel off idx : ℕ) :
    (readFillFrom cd size fuel off idx).length ≤ size - off := by
  induction fuel generalizing off idx with
  | zero => exact Nat.zero_le _
  | succ fuel ih =>
    rw [readFillFrom]
    split_ifs with h
    · have := ih (off + min (size - off) 4) (idx + 1)
      rw [length_append, length_take, length_leBytes]
      omega
    · exact Nat.zero_le _

/-- The fill value of integer parameters has the width of an element. -/
lemma IntegerParms.filval_spec (h : IntegerParms cd p) :
    ∃ fill, filval p cd = .ok fill ∧ ∀ bits ∈ fill, bits < 2 ^ (p.size * 8) := by
  unfold filval readFillBits
  have hle := h.size_le
  have hlen := h.length
  dsimp only
  split_ifs with hdef hshort
  · omega
  · refine ⟨some _, rfl, ?_⟩
    intro bits hbits
    obtain rfl := Option.mem_some.mp hbits
    have hread := length_readFillFrom_le cd p.size p.size 0 parmFilval
    calc leNat (readFillFrom cd p.size p.size 0 parmFilval)
        < 256 ^ (readFillFrom cd p.size p.size 0 parmFilval).length := leNat_lt _
      _ ≤ 256 ^ p.size := Nat.pow_le_pow_right (by omega) hread
      _ = 2 ^ (p.size * 8) := by rw [Nat.mul_comm, pow_mul]; rfl
  · exact ⟨none, rfl, fun bits hbits => absurd hbits (by simp)⟩

lemma writeFillFrom_spec (bits size fuel off idx : ℕ) (cd : List UInt32) :
    (writeFillFrom bits size fuel off idx cd).length = cd.length ∧
      ∀ i < idx, (writeFillFrom bits size fuel off idx cd).getD i 0 = cd.getD i 0 := by
  induction fuel generalizing off idx cd with
  | zero => exact ⟨rfl, fun i _ => rfl⟩
  | succ fuel ih =>
    rw [writeFillFrom]
    split_ifs with h
    · obtain ⟨hlen, hget⟩ := ih (off + min (size - off) 4) (idx + 1) (cd.set idx
        (UInt32.ofNat (leNat (((leBytes 8 bits).drop off).take (min (size - off) 4)))))
      refine ⟨hlen.trans length_set, fun i hi => ?_⟩
      rw [hget i (by omega), getD_eq_getElem?_getD, getElem?_set_ne (by omega),
        ← getD_eq_getElem?_getD]
    · exact ⟨rfl, fun i _ => rfl⟩

lemma parse_integer (hlen : parmFilval + 2 ≤ cd.length)
    (hclass : cd.getD parmClass 0 = clsInteger) (htype : cd.getD parmScaletype 0 = soInt)
    (hpos : 1 ≤ (cd.getD parmSize 0).toNat) (hle : (cd.getD parmSize 0).toNat ≤ 8)
    (order : ByteOrder) (horder : cd.getD parmOrder 0 = order.code) :
    ∃ p, IntegerParms cd p ∧ p.size = (cd.getD parmSize 0).toNat ∧
      p.nelmts = (cd.getD parmNelmts 0).toNat ∧
      p.scaleFactor = asSigned 32 (cd.getD parmScalefactor 0).toNat ∧
      p.filavail = cd.getD parmFilavail 0 ∧ p.order = order.code := by
  have hparse : Parms.parse cd = .ok
      { scaleType := cd.getD parmScaletype 0
        scaleFactor := asSigned 32 (cd.getD parmScalefactor 0).toNat
        nelmts := (cd.getD parmNelmts 0).toNat
        scalarClass := cd.getD parmClass 0
        size := (cd.getD parmSize 0).toNat
        order := cd.getD parmOrder 0
        filavail := cd.getD parmFilavail 0 } := by
    unfold Parms.parse
    rw [if_neg (by unfold coreNparms; omega), if_neg (by rw [hclass]; decide), if_neg (by omega),
      if_neg (by rw [hclass]; exact fun h => absurd h.1 (by decide)),
      if_neg (by rw [horder]; cases order <;> decide)]
  exact ⟨_, ⟨hparse, hclass, htype, hpos, hle, hlen⟩, rfl, rfl, rfl, rfl, horder⟩

lemma readFillFrom_writeFillFrom (bits : ℕ) (hsize : size ≤ 8) (fuel off idx : ℕ)
    (cd : List UInt32) (hfuel : size - off ≤ fuel)
    (hroom : idx + (size - off + 3) / 4 ≤ cd.length) :
    readFillFrom (writeFillFrom bits size fuel off idx cd) size fuel off idx =
      ((leBytes 8 bits).take size).drop off := by
  induction fuel generalizing off idx cd with
  | zero =>
    rw [readFillFrom, drop_eq_nil_of_le]
    rw [length_take]
    omega
  | succ fuel ih =>
    rw [readFillFrom, writeFillFrom]
    split_ifs with h
    · dsimp only
      generalize htake : min (size - off) 4 = take
      generalize hentry : ((leBytes 8 bits).drop off).take take = entry
      have hlen : entry.length = take := by
        rw [← hentry, length_take, length_drop, length_leBytes]
        omega
      have hlt : leNat entry < 2 ^ 32 := by
        calc leNat entry < 256 ^ entry.length := leNat_lt entry
          _ ≤ 256 ^ 4 := Nat.pow_le_pow_right (by omega) (by omega)
          _ = 2 ^ 32 := by norm_num
      -- the entries after this one are written past it
      have hget := (writeFillFrom_spec bits size fuel (off + take) (idx + 1)
        (cd.set idx (UInt32.ofNat (leNat entry)))).2 idx (Nat.lt_succ_self idx)
      rw [getD_eq_getElem?_getD, getD_eq_getElem?_getD,
        getElem?_set_self (by omega), Option.getD_some] at hget
      rw [getD_eq_getElem?_getD, hget, ih _ _ _ (by omega) (by rw [length_set]; omega),
        UInt32.toNat_ofNat_of_lt' hlt, leBytes_take (by omega), ← hlen, leBytes_leNat, hlen,
        ← drop_drop, drop_take]
      have hsplit := take_append_drop take (((leBytes 8 bits).drop off).take (size - off))
      rwa [take_take, ← htake, Nat.min_assoc, Nat.min_comm 4, ← Nat.min_assoc, Nat.min_self,
        htake, hentry] at hsplit
    · rw [drop_eq_nil_of_le]
      rw [length_take]
      omega

def Fill.bits (fill : Fill) (width : ℕ) (order : UInt32) : Except FilterError (Option ℕ) :=
  match fill with
  | .undefined => .ok none
  | .defined bytes => some <$> fillBits bytes width order

lemma Fill.bits_lt {fill : Fill} {width bits : ℕ} {order : UInt32}
    (h : fill.bits width order = .ok (some bits)) : bits < 2 ^ (width * 8) := by
  cases fill with
  | undefined => cases h
  | defined bytes =>
    cases bytes with
    | none =>
      cases h
      positivity
    | some bytes =>
      unfold Fill.bits fillBits at h
      dsimp only at h
      split_ifs at h with hlen
      · cases h
        exact readValue_lt order hlen
      · cases h

/-- The entries of integer mode, before a fill value is written. -/
def integerCd (minbits size nelmts : UInt32) (signed : Bool) (order : ByteOrder) (filavail : UInt32) :
    List UInt32 :=
  [soInt, minbits, nelmts, clsInteger, size, (ScalarType.integer signed order).sign, order.code,
    filavail] ++ replicate 12 0

lemma buildCdValues_integer_eq {minbits size : UInt32} {fill : Fill} (hpos : 1 ≤ size.toNat)
    (hle : size.toNat ≤ 8) :
    buildCdValues (.integer minbits) (.integer signed order) size nelmts fill =
      (fill.bits size.toNat order.code).map fun bits =>
        match bits with
        | none => integerCd minbits size nelmts signed order fillUndefined
        | some bits =>
          writeFillBits (integerCd minbits size nelmts signed order fillDefined) bits size.toNat := by
  have hscale : scaleParameters (.integer minbits) (.integer signed order) = .ok (soInt, minbits) := by
    unfold scaleParameters
    exact if_pos rfl
  have hsize : ¬(size = 0 ∨ 8 < size) := by
    rw [← UInt32.toNat_inj, UInt32.lt_iff_toNat_lt]
    show ¬(size.toNat = 0 ∨ 8 < size.toNat)
    omega
  show (if _ then _ else _) = _
  rw [if_neg hsize]
  cases fill with
  | undefined => rfl
  | defined bytes =>
    show (fillBits bytes size.toNat order.code >>= _) = Except.map _ (some <$> _)
    cases fillBits bytes size.toNat order.code with
    | error e => rfl
    | ok bits => rfl

lemma buildCdValues_size {mode : Mode} {ty : ScalarType} {size : UInt32} {fill : Fill}
    (h : buildCdValues mode ty size nelmts fill = .ok cd) : 1 ≤ size.toNat ∧ size.toNat ≤ 8 := by
  obtain ⟨scale, -, h⟩ := bind_eq_ok.mp h
  obtain ⟨hsize, -⟩ := ite_error_eq_ok.mp h
  rw [← UInt32.toNat_inj, UInt32.lt_iff_toNat_lt] at hsize
  change ¬(size.toNat = 0 ∨ 8 < size.toNat) at hsize
  omega

/-- Entries that begin like those of integer mode are parsed back. -/
lemma parse_integerCd {minbits size filavail : UInt32} (hpos : 1 ≤ size.toNat)
    (hle : size.toNat ≤ 8)
    (hlen : cd.length = (integerCd minbits size nelmts signed order filavail).length)
    (hget : ∀ i < parmFilval, cd.getD i 0 =
      (integerCd minbits size nelmts signed order filavail).getD i 0) :
    ∃ p, IntegerParms cd p ∧ p.size = size.toNat ∧ p.nelmts = nelmts.toNat ∧
      p.scaleFactor = asSigned 32 minbits.toNat ∧ p.filavail = filavail ∧ p.order = order.code ∧
      cd.getD parmSign 0 = (ScalarType.integer signed order).sign := by
  have hsize : cd.getD parmSize 0 = size := hget parmSize (by decide)
  have hroom : parmFilval + 2 ≤ cd.length := by
    rw [hlen]
    show 10 ≤ 20
    omega
  obtain ⟨p, hp, hpsize, hnelmts, hfactor, havail, horder⟩ := parse_integer hroom (hget parmClass (by decide))
    (hget parmScaletype (by decide)) (by rw [hsize]; exact hpos) (by rw [hsize]; exact hle) order
    (hget parmOrder (by decide))
  refine ⟨p, hp, by rw [hpsize, hsize], ?_, ?_, ?_, horder, hget parmSign (by decide)⟩
  · rw [hnelmts, hget parmNelmts (by decide)]
    rfl
  · rw [hfactor, hget parmScalefactor (by decide)]
    rfl
  · rw [havail, hget parmFilavail (by decide)]
    rfl

/-- The parameters that are built for an integer type are parsed back, the fill value included. -/
lemma buildCdValues_integer {minbits size : UInt32} {fill : Fill}
    (h : buildCdValues (.integer minbits) (.integer signed order) size nelmts fill = .ok cd) :
    ∃ p, IntegerParms cd p ∧ p.size = size.toNat ∧ p.nelmts = nelmts.toNat ∧
      p.scaleFactor = asSigned 32 minbits.toNat ∧ p.order = order.code ∧
      cd.getD parmSign 0 = (ScalarType.integer signed order).sign ∧
      filval p cd = fill.bits size.toNat order.code := by
  obtain ⟨hpos, hle⟩ := buildCdValues_size h
  rw [buildCdValues_integer_eq hpos hle] at h
  cases hbits : fill.bits size.toNat order.code with
  | error e =>
    rw [hbits] at h
    cases h
  | ok bits =>
    rw [hbits] at h
    cases h
    cases bits with
    | none =>
      obtain ⟨p, hp, hpsize, hnelmts, hfactor, havail, horder, hsign⟩ :=
        parse_integerCd hpos hle rfl fun _ _ => rfl
      refine ⟨p, hp, hpsize, hnelmts, hfactor, horder, hsign, ?_⟩
      rw [filval, havail, if_neg (by decide)]
    | some bits =>
      have hspec := writeFillFrom_spec bits size.toNat size.toNat 0 parmFilval
        (integerCd minbits size nelmts signed order fillDefined)
      obtain ⟨p, hp, hpsize, hnelmts, hfactor, havail, horder, hsign⟩ :=
        parse_integerCd hpos hle hspec.1 hspec.2
      refine ⟨p, hp, hpsize, hnelmts, hfactor, horder, hsign, ?_⟩
      have hlen : (integerCd minbits size nelmts signed order fillDefined).length = 20 := rfl
      have hread := readFillFrom_writeFillFrom bits hle size.toNat 0 parmFilval
        (integerCd minbits size nelmts signed order fillDefined) (by omega)
        (by rw [hlen]; show 8 + _ ≤ 20; omega)
      have hlt := Fill.bits_lt hbits
      show filval p (writeFillFrom bits size.toNat size.toNat 0 parmFilval
        (integerCd minbits size nelmts signed order fillDefined)) = _
      rw [filval, havail, if_pos rfl, hpsize, readFillBits, if_neg (by rw [hspec.1, hlen]; show ¬20 < 8 + _; omega),
        hread, drop_zero, leBytes_take hle, leNat_leBytes_of_lt]
      · rfl
      · rwa [Nat.mul_comm, pow_mul] at hlt

/-! ## Offsets -/

lemma codeCount_eq (spread : ℕ) (fill : Option ℤ) :
    codeCount spread fill = spread + 1 + if fill.isSome then 1 else 0 := by
  unfold codeCount
  split_ifs <;> rfl

section Offsets

variable {input : Bytes} {p : Parms} {signed : Bool} {fill : Option ℕ}

variable {minbits : ℕ}

/-- The offset of a value that is not the fill value is below the reserved one. -/
lemma restore_offset_of_ne {min : ℤ} (hsize : p.size ≤ 8) (hle : min ≤ v)
    (hlt : (v - min).toNat + (if fill.isSome then 1 else 0) < 2 ^ minbits) :
    ((restore p minbits (min % 2 ^ 64).toNat fill (v - min).toNat : ℕ) : ℤ) =
      v % 2 ^ (p.size * 8) := by
  cases fill with
  | none => exact restore_offset hsize hle
  | some fv =>
    rw [Option.isSome_some, if_pos rfl] at hlt
    rw [restore, if_neg (by unfold sentinel; omega)]
    exact restore_offset hsize hle

/-- The offset that the encoder stores for element `i`. -/
def offsetOf (input : Bytes) (p : Parms) (signed : Bool) (fill : Option ℤ) (minbits : ℕ)
    (min : ℤ) (i : ℕ) : ℕ :=
  let v := readAsI128 input p signed i
  if some v = fill then sentinel minbits else (v - min).toNat

/-- Every offset fits the width and stands for the bits of its element. -/
lemma offsetOf_spec {n i : ℕ} {range : ℤ × ℤ} (hsize : p.size ≤ 8)
    (hlen : input.length = n * p.size) (hi : i < n) (hfill : ∀ bits ∈ fill, bits < 2 ^ (p.size * 8))
    (hrange : some (readAsI128 input p signed i) ≠ fill.map (fillAsI128 p signed) →
      range.1 ≤ readAsI128 input p signed i ∧ readAsI128 input p signed i ≤ range.2)
    (hwidth : codeCount (range.2 - range.1).toNat (fill.map (fillAsI128 p signed)) ≤ 2 ^ minbits) :
    offsetOf input p signed (fill.map (fillAsI128 p signed)) minbits range.1 i < 2 ^ minbits ∧
      restore p minbits (range.1 % 2 ^ 64).toNat (fill.map (· &&& p.widthMask))
          (offsetOf input p signed (fill.map (fillAsI128 p signed)) minbits range.1 i) =
        readValue ((input.drop (i * p.size)).take p.size) p.size p.order := by
  have hvalue := readAsI128_emod signed hsize (length_element hlen hi)
  rw [codeCount_eq, Option.isSome_map] at hwidth
  unfold offsetOf
  by_cases heq : some (readAsI128 input p signed i) = fill.map (fillAsI128 p signed)
  · -- a fill value
    rw [if_pos heq]
    obtain ⟨bits, rfl, hbits⟩ := Option.map_eq_some_iff.mp heq.symm
    have hlt := hfill bits rfl
    refine ⟨Nat.sub_lt (by positivity) Nat.one_pos, ?_⟩
    rw [Option.map_some, restore, if_pos rfl, and_widthMask, Nat.mod_eq_of_lt hlt]
    have : ((bits : ℕ) : ℤ) = readValue ((input.drop (i * p.size)).take p.size) p.size p.order := by
      rw [← hvalue, ← hbits, fillAsI128_emod hsize hlt]
    exact_mod_cast this
  · rw [if_neg heq]
    obtain ⟨hlo, hhi⟩ := hrange heq
    have hlt : (readAsI128 input p signed i - range.1).toNat + (if fill.isSome then 1 else 0) <
        2 ^ minbits := by omega
    refine ⟨by omega, ?_⟩
    rw [← Option.isSome_map] at hlt
    have := restore_offset_of_ne hsize hlo hlt
    rw [hvalue] at this
    exact_mod_cast this

/-- Pre-compression keeps the elements as they are, or finds offsets that fit a smaller width and
restore them. -/
lemma precompressInteger_spec {minval : ℕ} (hpos : 1 ≤ p.size) (hsize : p.size ≤ 8)
    (hlen : input.length = p.nelmts * p.size) (hfill : ∀ bits ∈ fill, bits < 2 ^ (p.size * 8))
    (h : precompressInteger input p signed fill = (minbits, minval, offsets)) :
    minval < 2 ^ 64 ∧ (minbits = p.size * 8 ∨
      minbits < p.size * 8 ∧ (minbits = 0 → fill = none) ∧
      ∃ offset : ℕ → ℕ, offsets = (range p.nelmts).map offset ∧ ∀ i < p.nelmts,
        offset i < 2 ^ minbits ∧
        restore p minbits minval (fill.map (· &&& p.widthMask)) (offset i) =
          readValue ((input.drop (i * p.size)).take p.size) p.size p.order ∧
        ∀ bits ∈ fill, readValue ((input.drop (i * p.size)).take p.size) p.size p.order = bits →
          offset i = sentinel minbits) := by
  unfold precompressInteger at h
  dsimp only at h
  have hvalue := fun i (hi : i < p.nelmts) => @valueRange_spec
    (readAsI128 input p signed i) ((range p.nelmts).map (readAsI128 input p signed))
    (fill.map (fillAsI128 p signed)) (mem_map_of_mem (mem_range.mpr hi))
  generalize valueRange ((range p.nelmts).map (readAsI128 input p signed))
    (fill.map (fillAsI128 p signed)) = range at h hvalue
  have hminval : (range.1 % 2 ^ 64).toNat < 2 ^ 64 := by
    omega
  unfold offsetsFrom at h
  by_cases hspread : (range.2 - range.1).toNat > p.widthMask - 2
  · rw [if_pos hspread] at h
    obtain ⟨rfl, rfl, -⟩ := h
    refine ⟨?_, .inl rfl⟩
    split_ifs
    · exact hminval
    · positivity
  · rw [if_neg hspread] at h
    -- the guard leaves room for the reserved code
    have hmask : 2 ≤ p.widthMask ∧ p.widthMask < 2 ^ 64 := by
      have h8 : 2 ^ 8 ≤ 2 ^ (p.size * 8) := Nat.pow_le_pow_right (by omega) (by omega)
      have h64 : 2 ^ (p.size * 8) ≤ 2 ^ 64 := Nat.pow_le_pow_right (by omega) (by omega)
      unfold Parms.widthMask
      omega
    have hcount := codeCount_eq (range.2 - range.1).toNat (fill.map (fillAsI128 p signed))
    have hbound : codeCount (range.2 - range.1).toNat (fill.map (fillAsI128 p signed)) < 2 ^ 64 := by
      rw [hcount]
      split_ifs <;> omega
    have hcodes := le_two_pow_ceilLog2 hbound
    generalize ceilLog2 (codeCount (range.2 - range.1).toNat (fill.map (fillAsI128 p signed))) = bits
      at h hcodes
    by_cases hfull : bits ≥ p.size * 8
    · rw [if_pos hfull] at h
      obtain ⟨rfl, rfl, -⟩ := h
      exact ⟨hminval, .inl rfl⟩
    rw [if_neg hfull] at h
    obtain ⟨rfl, rfl, rfl⟩ := h
    refine ⟨hminval, .inr ⟨by omega, ?_, offsetOf input p signed
      (fill.map (fillAsI128 p signed)) minbits range.1, map_map, fun i hi => ?_⟩⟩
    · rintro rfl
      rw [hcount, pow_zero] at hcodes
      cases fill with
      | none => rfl
      | some bits =>
        rw [Option.map_some, Option.isSome_some, if_pos rfl] at hcodes
        omega
    · obtain ⟨hlt, hrestore⟩ := offsetOf_spec hsize hlen hi hfill (hvalue i hi) hcodes
      refine ⟨hlt, hrestore, fun bits hbits heq => ?_⟩
      obtain rfl := Option.mem_def.mp hbits
      have hread : readAsI128 input p signed i = fillAsI128 p signed bits := by
        rw [readAsI128, fillAsI128, heq, and_widthMask, Nat.mod_eq_of_lt (hfill bits rfl)]
      rw [offsetOf, hread]
      exact if_pos rfl

end Offsets

end Hdf5Pure.Filter.ScaleOffset
