import Hdf5Pure.Filter.Fletcher
import Hdf5Pure.Utils.Checked

/-!
# The Fletcher32 sums do not overflow

`fletcher32_compute` adds in `u32` and folds the carries once every 360 words. The checked
computation stops at the first sum that leaves the range, as a build with overflow checks does.
-/

namespace Hdf5Pure.Filter

open List

def checkedU32Add (x y : UInt32) : Checked UInt32 :=
  if x.toNat + y.toNat < 2 ^ 32 then .ok (x + y) else .error ⟨"attempt to add with overflow"⟩

/-- The sums that `fletcher32_compute` packs, with each addition checked. -/
def checkedFletcherSums (data : Bytes) : Checked FletcherSums :=
  fletcherSums checkedU32Add data

/-- The big-endian words of the data; an odd last byte is the high byte of a word. -/
def beWords : Bytes → List ℕ
  | hi :: lo :: data => (hi.toNat * 2 ^ 8 + lo.toNat) :: beWords data
  | [last] => [last.toNat * 2 ^ 8]
  | [] => []

def prefixSums (words : List ℕ) : ℕ := (words.inits.map sum).sum

lemma prefixSums_cons (word : ℕ) (words : List ℕ) :
    prefixSums (word :: words) = (words.length + 1) * word + prefixSums words := by
  simp only [prefixSums, inits_cons, map_cons, map_map, sum_cons, sum_nil,
    Function.comp_def, sum_map_add, map_const', sum_replicate, length_inits,
    smul_eq_mul, zero_add]

/-! ## Words of two halves -/

lemma toNat_shiftLeft_or {x y k : UInt32} (hk : k.toNat < 32)
    (hx : x.toNat * 2 ^ k.toNat < 2 ^ 32) (hy : y.toNat < 2 ^ k.toNat) :
    (x <<< k ||| y).toNat = x.toNat * 2 ^ k.toNat + y.toNat := by
  rw [UInt32.toNat_or, UInt32.toNat_shiftLeft, Nat.mod_eq_of_lt hk, Nat.shiftLeft_eq,
    Nat.mod_eq_of_lt hx, ← Nat.shiftLeft_eq, Nat.shiftLeft_add_eq_or_of_lt hy]

lemma toNat_beWord (hi lo : UInt8) :
    (hi.toUInt32 <<< 8 ||| lo.toUInt32).toNat = hi.toNat * 2 ^ 8 + lo.toNat := by
  have hhi := hi.toNat_lt
  exact toNat_shiftLeft_or (by decide) (show hi.toNat * 2 ^ 8 < 2 ^ 32 by omega) lo.toNat_lt

lemma toNat_low (sum : UInt32) : (sum &&& (0xffff : UInt32)).toNat = sum.toNat % 2 ^ 16 := by
  rw [UInt32.toNat_and, show (0xffff : UInt32).toNat = 2 ^ 16 - 1 by decide,
    Nat.and_two_pow_sub_one_eq_mod]

lemma toNat_high (sum : UInt32) : (sum >>> (16 : UInt32)).toNat = sum.toNat / 2 ^ 16 :=
  (UInt32.toNat_shiftRight ..).trans (Nat.shiftRight_eq_div_pow ..)

namespace FletcherSums

variable {sums : FletcherSums} {data : Bytes} {words : List ℕ} {k : ℕ}

/-! ## Bounds -/

/-- The sums `k` words into a block. The bounds at its start are those a fold leaves. -/
structure Room (k : ℕ) (sums : FletcherSums) : Prop where
  sum1 : sums.sum1.toNat ≤ 65895 + 65535 * k
  sum2 : 2 * sums.sum2.toNat ≤ 262140 + 131790 * k + 65535 * (k * (k + 1))

lemma Room.mono {l : ℕ} (h : Room k sums) (hkl : k ≤ l) : Room l sums where
  sum1 := h.sum1.trans (by omega)
  sum2 := h.sum2.trans (by gcongr)

/-- Adding the words that `data` still holds to the sums gives the plain sums of all `words`,
modulo `65535`. -/
structure Tracks (words : List ℕ) (sums : FletcherSums) (data : Bytes) : Prop where
  sum1 : sums.sum1.toNat + (beWords data).sum ≡ words.sum [MOD 65535]
  sum2 : sums.sum2.toNat + (beWords data).length * sums.sum1.toNat + prefixSums (beWords data) ≡
    prefixSums words [MOD 65535]

/-! ## Additions -/

/-- An addition that is plain where it does not overflow, as the wrapping and the checked one are. -/
def Exact {m : Type → Type} [Monad m] (plus : UInt32 → UInt32 → m UInt32) : Prop :=
  ∀ x y : UInt32, x.toNat + y.toNat < 2 ^ 32 → plus x y = pure (x + y)

lemma exact_wrappingU32Add : Exact wrappingU32Add := fun _ _ _ => rfl

lemma exact_checkedU32Add : Exact checkedU32Add := fun _ _ h => if_pos h

/-- A computation with an addition returns `a`, whichever addition it is given: no sum overflows. -/
def Yields {α : Type} (f : ∀ {m : Type → Type} [Monad m], (UInt32 → UInt32 → m UInt32) → m α)
    (a : α) : Prop :=
  ∀ {m : Type → Type} [Monad m] [LawfulMonad m] {plus : UInt32 → UInt32 → m UInt32},
    Exact plus → f plus = pure a

lemma toNat_add_of_lt {x y : UInt32} (h : x.toNat + y.toNat < 2 ^ 32) :
    (x + y).toNat = x.toNat + y.toNat := by
  rw [UInt32.toNat_add, Nat.mod_eq_of_lt h]

/-- One word of a block is added without an overflow. -/
lemma add_spec (val : UInt32) (h : Room k sums) (hk : k < 360) (hval : val.toNat ≤ 65535) :
    ∃ sums', Yields (fun plus => sums.add plus val) sums' ∧ Room (k + 1) sums' ∧
      sums'.sum1.toNat = sums.sum1.toNat + val.toNat ∧
      sums'.sum2.toNat = sums.sum2.toNat + sums'.sum1.toNat := by
  have h1 := h.sum1
  have h2 := h.sum2
  have hsq : k * (k + 1) ≤ 359 * 360 := Nat.mul_le_mul (by omega) (by omega)
  have hsucc : (k + 1) * (k + 1 + 1) = k * (k + 1) + 2 * (k + 1) := by ring
  have hlt1 : sums.sum1.toNat + val.toNat < 2 ^ 32 := by omega
  have hn1 := toNat_add_of_lt hlt1
  have hlt2 : sums.sum2.toNat + (sums.sum1 + val).toNat < 2 ^ 32 := by omega
  have hn2 := toNat_add_of_lt hlt2
  refine ⟨⟨sums.sum1 + val, sums.sum2 + (sums.sum1 + val)⟩, fun hexact => ?_, ⟨?_, ?_⟩, hn1, hn2⟩
  · simp only [add, hexact _ _ hlt1, hexact _ _ hlt2, pure_bind]
  · show (sums.sum1 + val).toNat ≤ _
    omega
  · show 2 * (sums.sum2 + (sums.sum1 + val)).toNat ≤ _
    omega

/-- A word that is added leaves the data. -/
lemma Tracks.add {sums' : FletcherSums} {val : ℕ} {rest : Bytes}
    (h : Tracks words sums data) (hdata : beWords data = val :: beWords rest)
    (h1 : sums'.sum1.toNat = sums.sum1.toNat + val)
    (h2 : sums'.sum2.toNat = sums.sum2.toNat + sums'.sum1.toNat) : Tracks words sums' rest := by
  obtain ⟨ht1, ht2⟩ := h
  rw [hdata, sum_cons, ← add_assoc, ← h1] at ht1
  refine ⟨ht1, ?_⟩
  have hsum : sums'.sum2.toNat + (beWords rest).length * sums'.sum1.toNat +
      prefixSums (beWords rest) = sums.sum2.toNat + (beWords data).length * sums.sum1.toNat +
      prefixSums (beWords data) := by
    rw [hdata, prefixSums_cons, length_cons, h2, h1]
    ring
  rwa [hsum]

/-! ## Folds -/

/-- Each sum is the sum of its halves. -/
structure Folded (sums sums' : FletcherSums) : Prop where
  sum1 : sums'.sum1.toNat = sums.sum1.toNat % 2 ^ 16 + sums.sum1.toNat / 2 ^ 16
  sum2 : sums'.sum2.toNat = sums.sum2.toNat % 2 ^ 16 + sums.sum2.toNat / 2 ^ 16

lemma fold_spec (sums : FletcherSums) :
    ∃ sums', Yields (fun plus => sums.fold plus) sums' ∧ Folded sums sums' := by
  have hlt (sum : UInt32) :
      (sum &&& (0xffff : UInt32)).toNat + (sum >>> (16 : UInt32)).toNat < 2 ^ 32 := by
    have := sum.toNat_lt
    rw [toNat_low, toNat_high]
    omega
  have hfold (sum : UInt32) : ((sum &&& (0xffff : UInt32)) + (sum >>> (16 : UInt32))).toNat =
      sum.toNat % 2 ^ 16 + sum.toNat / 2 ^ 16 := by
    rw [toNat_add_of_lt (hlt sum), toNat_low, toNat_high]
  refine ⟨⟨(sums.sum1 &&& (0xffff : UInt32)) + (sums.sum1 >>> (16 : UInt32)),
    (sums.sum2 &&& (0xffff : UInt32)) + (sums.sum2 >>> (16 : UInt32))⟩, fun hexact => ?_,
    hfold sums.sum1, hfold sums.sum2⟩
  simp only [fold, foldCarry, hexact _ _ (hlt _), pure_bind]

variable {sums' : FletcherSums}

/-- After a block there is room for another. -/
lemma Room.fold (h : Room 360 sums) (hfold : Folded sums sums') : Room 0 sums' := by
  have h1 := h.sum1
  have h2 := sums.sum2.toNat_lt
  have hfold1 := hfold.sum1
  have hfold2 := hfold.sum2
  exact ⟨by omega, by omega⟩

/-- A second fold leaves both sums in 16 bits. -/
lemma Room.fold_lt (h : Room 0 sums) (hfold : Folded sums sums') :
    sums'.sum1.toNat < 2 ^ 16 ∧ sums'.sum2.toNat < 2 ^ 16 := by
  have h1 := h.sum1
  have h2 := h.sum2
  have hfold1 := hfold.sum1
  have hfold2 := hfold.sum2
  exact ⟨by omega, by omega⟩

/-- The sum of the halves is the same modulo `65535`. -/
lemma modEq_halves (n : ℕ) : n % 2 ^ 16 + n / 2 ^ 16 ≡ n [MOD 65535] := by
  unfold Nat.ModEq
  omega

lemma Tracks.fold (h : Tracks words sums data) (hfold : Folded sums sums') :
    Tracks words sums' data := by
  have hmod1 : sums'.sum1.toNat ≡ sums.sum1.toNat [MOD 65535] := by
    rw [hfold.sum1]
    exact modEq_halves _
  have hmod2 : sums'.sum2.toNat ≡ sums.sum2.toNat [MOD 65535] := by
    rw [hfold.sum2]
    exact modEq_halves _
  exact ⟨(hmod1.add_right _).trans h.sum1,
    ((hmod2.add (hmod1.mul_left _)).add_right _).trans h.sum2⟩

/-! ## Blocks -/

lemma addWords_spec (tlen : ℕ) (hk : k + tlen ≤ 360) (hlen : 2 * tlen ≤ data.length)
    (hroom : Room k sums) (htracks : Tracks words sums data) :
    ∃ sums' rest, Yields (fun plus => sums.addWords plus tlen data) (sums', rest) ∧
      Room 360 sums' ∧ Tracks words sums' rest ∧ rest.length = data.length - 2 * tlen := by
  induction tlen generalizing k sums data with
  | zero =>
    refine ⟨sums, data, fun _ => ?_, hroom.mono (by omega), htracks, rfl⟩
    simp only [addWords]
  | succ tlen ih =>
    match data, hlen, htracks with
    | hi :: lo :: data, hlen, htracks =>
      have hhi := hi.toNat_lt
      have hlo := lo.toNat_lt
      have hword := toNat_beWord hi lo
      obtain ⟨sums₁, hadd, hroom', h1, h2⟩ :=
        add_spec (hi.toUInt32 <<< 8 ||| lo.toUInt32) hroom (by omega) (by omega)
      have hlen' : 2 * tlen ≤ data.length := by
        simp only [length_cons] at hlen
        omega
      rw [hword] at h1
      obtain ⟨sums', rest, hwords, hroom'', htracks'', hrest⟩ :=
        ih (by omega) hlen' hroom' (htracks.add rfl h1 h2)
      refine ⟨sums', rest, fun hexact => ?_, hroom'', htracks'', hrest.trans ?_⟩
      · simp only [addWords, hadd hexact, pure_bind]
        exact hwords hexact
      · simp only [length_cons]
        omega
    | [_], hlen, _ => exact absurd hlen (show ¬ _ ≤ 1 by omega)
    | [], hlen, _ => exact absurd hlen (show ¬ _ ≤ 0 by omega)

lemma addBlocks_spec (fuel : ℕ) (hfuel : data.length / 2 ≤ fuel) (hroom : Room 0 sums)
    (htracks : Tracks words sums data) :
    ∃ sums' rest, Yields (fun plus => addBlocks plus fuel (data.length / 2) sums data)
        (sums', rest) ∧ Room 0 sums' ∧ Tracks words sums' rest ∧ rest.length < 2 := by
  induction fuel generalizing sums data with
  | zero => exact ⟨sums, data, fun _ => rfl, hroom, htracks, by omega⟩
  | succ fuel ih =>
    by_cases hwords : data.length / 2 = 0
    · refine ⟨sums, data, fun _ => ?_, hroom, htracks, by omega⟩
      simp only [addBlocks, if_pos hwords]
    · obtain ⟨sums₁, rest₁, hadd, hroom₁, htracks₁, hlen⟩ := addWords_spec
        (min (data.length / 2) 360) (by omega) (by omega) hroom htracks
      obtain ⟨sums₂, hfold, hfolded⟩ := fold_spec sums₁
      obtain ⟨sums', rest, hrest, h'⟩ :=
        ih (show rest₁.length / 2 ≤ fuel by omega) (hroom₁.fold hfolded) (htracks₁.fold hfolded)
      refine ⟨sums', rest, fun hexact => ?_, h'⟩
      -- the words left over are again half of the bytes left over
      have hleft : data.length / 2 - min (data.length / 2) 360 = rest₁.length / 2 := by omega
      simp only [addBlocks, if_neg hwords, hadd hexact, hfold hexact, pure_bind, hleft]
      exact hrest hexact

end FletcherSums

open FletcherSums

/-- **The sums do not overflow.** They fit into 16 bits, and are the sum of the words and of its
prefix sums modulo `65535`. -/
theorem fletcherSums_spec (data : Bytes) :
    ∃ sums, Yields (fun plus => fletcherSums plus data) sums ∧
      sums.sum1.toNat < 2 ^ 16 ∧ sums.sum2.toNat < 2 ^ 16 ∧ Tracks (beWords data) sums [] := by
  have hstart : Room 0 ⟨0, 0⟩ := ⟨by decide, by decide⟩
  obtain ⟨sums, rest, hblocks, hroom, htracks, hlen⟩ :=
    addBlocks_spec (data.length / 2) le_rfl hstart
      (show Tracks (beWords data) ⟨0, 0⟩ data from ⟨by simp [Nat.ModEq], by simp [Nat.ModEq]⟩)
  match rest, hlen with
  | [], _ =>
    obtain ⟨last, hfold, hfolded⟩ := fold_spec sums
    obtain ⟨hlt1, hlt2⟩ := hroom.fold_lt hfolded
    refine ⟨last, fun hexact => ?_, hlt1, hlt2, htracks.fold hfolded⟩
    simp only [fletcherSums, hblocks hexact, pure_bind]
    exact hfold hexact
  | [byte], _ =>
    have hbyte := byte.toNat_lt
    have hword : (byte.toUInt32 <<< 8).toNat = byte.toNat * 2 ^ 8 := by
      simpa using toNat_beWord byte 0
    obtain ⟨sums₁, hadd, hroom₁, h1, h2⟩ :=
      add_spec (byte.toUInt32 <<< 8) hroom (by omega) (by omega)
    obtain ⟨sums₂, hfold, hfolded⟩ := fold_spec sums₁
    obtain ⟨last, hfold', hfolded'⟩ := fold_spec sums₂
    have hroom₂ := (hroom₁.mono (by omega)).fold hfolded
    obtain ⟨hlt1, hlt2⟩ := hroom₂.fold_lt hfolded'
    rw [hword] at h1
    refine ⟨last, fun hexact => ?_, hlt1, hlt2, ((htracks.add rfl h1 h2).fold hfolded).fold hfolded'⟩
    simp only [fletcherSums, hblocks hexact, hadd hexact, hfold hexact, pure_bind]
    exact hfold' hexact

/-- The checksum packs the two sums. -/
lemma toNat_packed {sums : FletcherSums} (h1 : sums.sum1.toNat < 2 ^ 16)
    (h2 : sums.sum2.toNat < 2 ^ 16) :
    ((sums.sum2 <<< (16 : UInt32)) ||| sums.sum1).toNat =
      sums.sum2.toNat * 2 ^ 16 + sums.sum1.toNat :=
  toNat_shiftLeft_or (by decide) (show _ * 2 ^ 16 < 2 ^ 32 by omega) h1

lemma fletcher32Compute_eq {data : Bytes} {sums : FletcherSums}
    (h : Yields (fun plus => fletcherSums plus data) sums) :
    fletcher32Compute data = (sums.sum2 <<< (16 : UInt32)) ||| sums.sum1 := by
  have hsums : fletcherSums wrappingU32Add data = sums := h exact_wrappingU32Add
  unfold fletcher32Compute
  rw [hsums]
  rfl

/-- `fletcher32_compute` overflows no sum: with each addition checked it returns the sums that the
checksum packs. Each fits its half of the result, and they are the sum of the big-endian words and
the sum of its prefix sums modulo `65535`. -/
theorem fletcher32Compute_modular (data : Bytes) :
    ∃ sums, checkedFletcherSums data = .ok sums ∧
      fletcher32Compute data = (sums.sum2 <<< (16 : UInt32)) ||| sums.sum1 ∧
      sums.sum1.toNat < 2 ^ 16 ∧ sums.sum2.toNat < 2 ^ 16 ∧
      (fletcher32Compute data).toNat = sums.sum2.toNat * 2 ^ 16 + sums.sum1.toNat ∧
      sums.sum1.toNat ≡ (beWords data).sum [MOD 65535] ∧
      sums.sum2.toNat ≡ ((beWords data).inits.map sum).sum [MOD 65535] := by
  obtain ⟨sums, hyields, hlt1, hlt2, htracks⟩ := fletcherSums_spec data
  have hcompute := fletcher32Compute_eq hyields
  refine ⟨sums, hyields exact_checkedU32Add, hcompute, hlt1, hlt2, ?_, ?_, ?_⟩
  · rw [hcompute]
    exact toNat_packed hlt1 hlt2
  · simpa [beWords] using htracks.sum1
  · simpa [beWords, prefixSums] using htracks.sum2

/-! ## Corrupted bytes -/

/-- The low half of a checksum is the sum of the words. -/
lemma fletcher32Compute_low (data : Bytes) :
    (fletcher32Compute data).toNat % 2 ^ 16 ≡ (beWords data).sum [MOD 65535] := by
  obtain ⟨sums, hyields, hlt1, hlt2, htracks⟩ := fletcherSums_spec data
  rw [fletcher32Compute_eq hyields, toNat_packed hlt1 hlt2,
    show (_ * 2 ^ 16 + _) % 2 ^ 16 = sums.sum1.toNat by omega]
  simpa [beWords] using htracks.sum1

/-- What a byte at position `i` counts in the sum of the words. -/
def byteWeight (i : ℕ) : ℕ := if i % 2 = 0 then 256 else 1

/-- One byte enters the sum of the words with its weight. -/
lemma sum_beWords_append (before after : Bytes) :
    ∃ c, ∀ b : UInt8,
      (beWords (before ++ b :: after)).sum = c + byteWeight before.length * b.toNat := by
  fun_induction beWords before with
  | case1 hi lo before ih =>
    obtain ⟨c, hc⟩ := ih
    refine ⟨hi.toNat * 2 ^ 8 + lo.toNat + c, fun b => ?_⟩
    have hweight : byteWeight (hi :: lo :: before).length = byteWeight before.length := by
      simp only [byteWeight, length_cons, Nat.add_assoc, Nat.reduceAdd, Nat.add_mod_right]
    simp only [cons_append, beWords, sum_cons, hc, hweight]
    omega
  | case2 last =>
    refine ⟨last.toNat * 2 ^ 8 + (beWords after).sum, fun b => ?_⟩
    simp [beWords, byteWeight]
    omega
  | case3 =>
    cases after with
    | nil => exact ⟨0, fun b => by simp [beWords, byteWeight, Nat.mul_comm]⟩
    | cons lo after =>
      refine ⟨lo.toNat + (beWords after).sum, fun b => ?_⟩
      simp [beWords, byteWeight]
      omega

/-- A checksum depends on each byte. -/
lemma fletcher32Compute_ne (before after : Bytes) {old new : UInt8} (hne : old ≠ new) :
    fletcher32Compute (before ++ old :: after) ≠ fletcher32Compute (before ++ new :: after) := by
  intro heq
  apply hne
  have hlow := fletcher32Compute_low (before ++ old :: after)
  rw [heq] at hlow
  obtain ⟨c, hc⟩ := sum_beWords_append before after
  have hsum := hlow.symm.trans (fletcher32Compute_low _)
  rw [hc, hc] at hsum
  -- a byte with its weight is less than the modulus
  have hcancel := Nat.ModEq.add_left_cancel' c hsum
  have hold := old.toNat_lt
  have hnew := new.toNat_lt
  apply UInt8.toNat_inj.mp
  unfold byteWeight Nat.ModEq at hcancel
  split_ifs at hcancel <;> omega

/-- Of a chunk that verification accepts, no copy with one byte changed is accepted. -/
lemma fletcher32Verify_changed {before after data : Bytes} {old new : UInt8}
    (h : fletcher32Verify (before ++ old :: after) = .ok data) (hne : old ≠ new) :
    ∃ stored computed, fletcher32Verify (before ++ new :: after) =
      .error (.fletcher32Mismatch stored computed) := by
  obtain ⟨hlen, h⟩ := ite_error_eq_ok.mp h
  have hold := not_not.mp (ite_error_eq_ok.mp h).1
  unfold fletcher32Verify
  simp only [length_append, length_cons] at hlen hold ⊢
  rw [if_neg hlen]
  refine ⟨_, _, if_pos fun hnew => ?_⟩
  by_cases hdata : 4 ≤ after.length
  · -- the byte belongs to the data, and the stored checksum is the same
    rw [show before.length + (after.length + 1) - 4 = before.length + (after.length - 4 + 1) by
      omega] at hold hnew
    simp only [take_length_add_append, drop_length_add_append, take_succ_cons,
      drop_succ_cons] at hold hnew
    exact fletcher32Compute_ne _ _ hne (UInt32.toNat_inj.mp (hold.symm.trans hnew))
  · -- the byte belongs to the checksum, and the data is the same
    have hm : before.length + (after.length + 1) - 4 ≤ before.length := by omega
    simp only [take_append_of_le_length hm, drop_append_of_le_length hm] at hold hnew
    set rest := before.drop (before.length + (after.length + 1) - 4)
    have hbytes := congrArg (leBytes (rest ++ old :: after).length) (hold.trans hnew.symm)
    rw [leBytes_leNat, show (rest ++ old :: after).length = (rest ++ new :: after).length by simp,
      leBytes_leNat] at hbytes
    exact hne (cons.inj (append_cancel_left hbytes)).1

end Hdf5Pure.Filter
