import Hdf5Pure.Format.Checksum
import Hdf5Pure.Utils.Patch

/-!
# The lookup3 hash of a stream and of a block with a zeroed field

`JenkinsLookup3` of `crates/hdf5-pure-format/src/checksum.rs` takes its input in slices and keeps the
bytes of a block until it knows whether more follow. `hashlittle_zeroed` reads a four-byte field as
zeros. Both give the hash of the whole input.
-/

namespace Hdf5Pure.Format

open List

def addBlock (w : Words) (block : Bytes) : Words :=
  ⟨w.a + .ofNat (leNat (block.take 4)), w.b + .ofNat (leNat ((block.drop 4).take 4)),
    w.c + .ofNat (leNat ((block.drop 8).take 4))⟩

/-- `JenkinsLookup3`, with the filled part of its `pending` block. -/
structure JenkinsLookup3 where
  words : Words
  remaining : ℕ
  pending : Bytes
deriving DecidableEq, Repr

namespace JenkinsLookup3

def new (totalLen : ℕ) : JenkinsLookup3 :=
  let seed : UInt32 := 0xdeadbeef + .ofNat totalLen
  ⟨⟨seed, seed, seed⟩, totalLen, []⟩

/-- Appends bytes to the pending block. A full one is mixed once more input is due. -/
def fill (s : JenkinsLookup3) (bytes : Bytes) : JenkinsLookup3 :=
  let pending := s.pending ++ bytes
  let remaining := s.remaining - bytes.length
  if pending.length = 12 ∧ remaining ≠ 0 then ⟨mix (addBlock s.words pending), remaining, []⟩
  else ⟨s.words, remaining, pending⟩

/-- The loop of `update`. The fuel bounds the number of its passes. -/
def absorb : ℕ → JenkinsLookup3 → Bytes → JenkinsLookup3
  | 0, s, _ => s
  | fuel + 1, s, data =>
    if data.isEmpty then s
    else
      let len := min (12 - s.pending.length) data.length
      absorb fuel (s.fill (data.take len)) (data.drop len)

/-- Hashes the next bytes; the second component is the state after the call. -/
def update (s : JenkinsLookup3) (data : Bytes) : Except FormatError Unit × JenkinsLookup3 :=
  if s.remaining < data.length then
    (.error (.internal "checksum input exceeds its declared length"), s)
  else (.ok (), absorb data.length s data)

def finish (s : JenkinsLookup3) : Except FormatError UInt32 :=
  if s.remaining ≠ 0 then .error (.internal "checksum input is shorter than its declared length")
  else if s.pending.isEmpty then .ok s.words.c
  else .ok (finalMix (addBlock s.words s.pending)).c

/-- Feeds slices in turn, up to the first that is refused. -/
def updateAll : JenkinsLookup3 → List Bytes → Except FormatError JenkinsLookup3
  | s, [] => .ok s
  | s, data :: slices =>
    match s.update data with
    | (.ok (), s) => updateAll s slices
    | (.error e, _) => .error e

end JenkinsLookup3

/-! ## The hash still to come -/

/-- The hash of the remaining input, block by block. The fuel bounds the number of blocks. -/
def hashBlocks : ℕ → Words → Bytes → UInt32
  | 0, w, _ => w.c
  | fuel + 1, w, data =>
    if 12 < data.length then hashBlocks fuel (mix (addBlock w (data.take 12))) (data.drop 12)
    else if data.isEmpty then w.c
    else (finalMix (addBlock w data)).c

lemma hashBlocks_fuel {f g : ℕ} {w : Words} {data : Bytes} (hf : data.length < f)
    (hg : data.length < g) : hashBlocks f w data = hashBlocks g w data := by
  induction f generalizing g w data with
  | zero => exact absurd hf (by omega)
  | succ f ih =>
    obtain ⟨g, rfl⟩ := Nat.exists_eq_succ_of_ne_zero (show g ≠ 0 by omega)
    unfold hashBlocks
    by_cases hlen : 12 < data.length
    · rw [if_pos hlen, if_pos hlen]
      have hdrop : (data.drop 12).length = data.length - 12 := length_drop
      exact ih (by omega) (by omega)
    · rw [if_neg hlen, if_neg hlen]

def hashFrom (w : Words) (data : Bytes) : UInt32 := hashBlocks (data.length + 1) w data

lemma hashFrom_of_lt {w : Words} {data : Bytes} (h : 12 < data.length) :
    hashFrom w data = hashFrom (mix (addBlock w (data.take 12))) (data.drop 12) := by
  have hdrop : (data.drop 12).length = data.length - 12 := length_drop
  exact (if_pos h).trans (hashBlocks_fuel (by omega) (by omega))

lemma hashFrom_of_le {w : Words} {data : Bytes} (h : data.length ≤ 12) :
    hashFrom w data = if data.isEmpty then w.c else (finalMix (addBlock w data)).c :=
  if_neg (by omega)

namespace JenkinsLookup3

variable {s s' : JenkinsLookup3} {data rest : Bytes} {slices : List Bytes}
  {hash : UInt32}

/-- The pending block has room for the input still due. -/
structure Fits (s : JenkinsLookup3) : Prop where
  le : s.pending.length ≤ 12
  lt : s.remaining ≠ 0 → s.pending.length < 12

/-- With the rest of the input the stream gives the hash. -/
structure Owes (s : JenkinsLookup3) (rest : Bytes) (hash : UInt32) : Prop extends Fits s where
  remaining : s.remaining = rest.length
  hash : hashFrom s.words (s.pending ++ rest) = hash

lemma Owes.fill (h : Owes s (data ++ rest) hash)
    (hlen : s.pending.length + data.length ≤ 12) : Owes (s.fill data) rest hash := by
  have hrem : s.remaining - data.length = rest.length := by
    rw [h.remaining, length_append, Nat.add_sub_cancel_left]
  have hpend : (s.pending ++ data).length = s.pending.length + data.length := length_append
  have hhash := h.hash
  rw [← append_assoc] at hhash
  unfold JenkinsLookup3.fill
  by_cases hfull : (s.pending ++ data).length = 12 ∧ s.remaining - data.length ≠ 0
  · rw [if_pos hfull]
    refine ⟨⟨Nat.zero_le _, fun _ => Nat.zero_lt_succ _⟩, hrem, ?_⟩
    -- Input is left after the block, so the one-shot loop mixes it as well.
    rw [hashFrom_of_lt (by rw [length_append]; omega), take_left' hfull.1,
      drop_left' hfull.1] at hhash
    exact hhash
  · rw [if_neg hfull]
    refine ⟨⟨hpend.trans_le hlen, fun hne => ?_⟩, hrem, hhash⟩
    exact lt_of_le_of_ne (hpend.trans_le hlen) fun hfull' => hfull ⟨hfull', hne⟩

lemma Owes.absorb {fuel : ℕ} (hfuel : data.length ≤ fuel) (h : Owes s (data ++ rest) hash) :
    Owes (absorb fuel s data) rest hash := by
  induction fuel generalizing s data with
  | zero =>
    obtain rfl := length_eq_zero_iff.mp (Nat.le_zero.mp hfuel)
    exact h
  | succ fuel ih =>
    unfold JenkinsLookup3.absorb
    by_cases hnil : data = []
    · subst hnil
      exact h
    · rw [if_neg (by simpa using hnil)]
      have hpos := length_pos_iff.mpr hnil
      have hroom := h.lt (by rw [h.remaining, length_append]; omega)
      have htake : (data.take (min (12 - s.pending.length) data.length)).length =
          min (12 - s.pending.length) data.length := by
        rw [length_take]
        omega
      apply ih
      · rw [length_drop]
        omega
      · apply Owes.fill
        · rwa [← append_assoc, take_append_drop]
        · omega

lemma Owes.update (h : Owes s (data ++ rest) hash) :
    ∃ s', s.update data = (.ok (), s') ∧ Owes s' rest hash := by
  refine ⟨_, if_neg ?_, h.absorb le_rfl⟩
  rw [h.remaining, length_append]
  omega

lemma Owes.updateAll (h : Owes s (slices.flatten ++ rest) hash) :
    ∃ s', s.updateAll slices = .ok s' ∧ Owes s' rest hash := by
  induction slices generalizing s with
  | nil => exact ⟨s, rfl, h⟩
  | cons data slices ih =>
    rw [flatten_cons, append_assoc] at h
    obtain ⟨s₁, hupdate, h₁⟩ := h.update
    unfold JenkinsLookup3.updateAll
    rw [hupdate]
    exact ih h₁

lemma Owes.finish (h : Owes s [] hash) : s.finish = .ok hash := by
  have hhash := h.hash
  rw [append_nil, hashFrom_of_le h.le] at hhash
  unfold JenkinsLookup3.finish
  rw [if_neg (show ¬ s.remaining ≠ 0 from not_not.mpr h.remaining), ← hhash]
  exact (apply_ite Except.ok _ _ _).symm

lemma new_fits (totalLen : ℕ) : Fits (new totalLen) :=
  ⟨Nat.zero_le _, fun _ => Nat.zero_lt_succ _⟩

/-- An accepted slice is taken off the declared length. -/
lemma Fits.update (h : Fits s) (hu : s.update data = (.ok (), s')) :
    Fits s' ∧ s'.remaining + data.length = s.remaining := by
  by_cases hlt : s.remaining < data.length
  · rw [JenkinsLookup3.update, if_pos hlt] at hu
    exact (nomatch hu)
  · -- Whatever the rest of the input is, the stream still owes its hash.
    have howes : Owes s (data ++ .replicate (s.remaining - data.length) 0) _ :=
      ⟨h, by rw [length_append, length_replicate]; omega, rfl⟩
    obtain ⟨s₁, hu₁, h₁⟩ := howes.update
    obtain rfl : s₁ = s' := congrArg Prod.snd (hu₁.symm.trans hu)
    have hrem := h₁.remaining
    rw [length_replicate] at hrem
    exact ⟨h₁.toFits, by omega⟩

lemma Fits.updateAll (h : Fits s) (hu : s.updateAll slices = .ok s') :
    s'.remaining + slices.flatten.length = s.remaining := by
  induction slices generalizing s with
  | nil =>
    cases hu
    rfl
  | cons data slices ih =>
    unfold JenkinsLookup3.updateAll at hu
    rcases hd : s.update data with ⟨_ | _, s₁⟩
    · rw [hd] at hu
      exact (nomatch hu)
    · rw [hd] at hu
      obtain ⟨h₁, hrem⟩ := h.update hd
      have := ih h₁ hu
      rw [flatten_cons, length_append]
      omega

end JenkinsLookup3

/-! ## Zeroed fields -/

section Zeroed

variable (zero : Bool) (data : Bytes) (zeroAt : ℕ)

def seen : Bytes := (range data.length).map fun i => byteAt zero data i zeroAt

@[simp] lemma length_seen : (seen zero data zeroAt).length = data.length := by simp [seen]

lemma map_byteAt (offset n : ℕ) :
    ((range (min n (data.length - offset))).map fun i => byteAt zero data (offset + i) zeroAt) =
      ((seen zero data zeroAt).drop offset).take n := by
  apply ext_getElem
  · simp
  · intro i h₁ h₂
    simp [seen]

lemma readU32Le_eq {offset : ℕ} (h : offset + 4 ≤ data.length) :
    readU32Le zero data offset zeroAt =
      .ofNat (leNat (((seen zero data zeroAt).drop offset).take 4)) := by
  rw [← map_byteAt, min_eq_left (by omega)]
  rfl

lemma zeroedBlocks_spec (fuel offset : ℕ) (w : Words) (hfuel : data.length - offset < fuel) :
    data.length - (zeroedBlocks zero data zeroAt fuel offset w).1 ≤ 12 ∧
      hashFrom (zeroedBlocks zero data zeroAt fuel offset w).2
          ((seen zero data zeroAt).drop (zeroedBlocks zero data zeroAt fuel offset w).1) =
        hashFrom w ((seen zero data zeroAt).drop offset) := by
  induction fuel generalizing offset w with
  | zero => exact absurd hfuel (by omega)
  | succ fuel ih =>
    unfold zeroedBlocks
    by_cases hlen : 12 < data.length - offset
    · rw [if_pos hlen]
      obtain ⟨hle, hhash⟩ := ih (offset + 12) (mix _) (by omega)
      refine ⟨hle, hhash.trans ?_⟩
      rw [readU32Le_eq _ _ _ (by omega), readU32Le_eq _ _ _ (by omega),
        readU32Le_eq _ _ _ (by omega)]
      refine Eq.symm ((hashFrom_of_lt (by simpa using hlen)).trans ?_)
      simp [addBlock, drop_take, take_take, drop_drop]
    · rw [if_neg hlen]
      exact ⟨by omega, rfl⟩

lemma hashFrom_tail {offset : ℕ} (w : Words) (h : data.length - offset ≤ 12) :
    hashFrom w ((seen zero data zeroAt).drop offset) =
      if (data.drop offset).isEmpty then w.c
      else (finalMix ⟨w.a + tailWord zero data zeroAt offset 0,
        w.b + tailWord zero data zeroAt offset 1, w.c + tailWord zero data zeroAt offset 2⟩).c := by
  have hempty : ((seen zero data zeroAt).drop offset).isEmpty = (data.drop offset).isEmpty := by
    rw [Bool.eq_iff_iff]
    simp
  rw [hashFrom_of_le (by simpa using h), hempty]
  simp only [tailWord, map_byteAt, ← drop_drop]
  rfl

def seeded (n : ℕ) : Words := (JenkinsLookup3.new n).words

lemma hashlittleZeroed_eq :
    hashlittleZeroed zero data 0 zeroAt =
      hashFrom (seeded data.length) (seen zero data zeroAt) := by
  obtain ⟨hle, hhash⟩ := zeroedBlocks_spec zero data zeroAt (data.length + 1) 0
    (seeded data.length) (by omega)
  rw [hashFrom_tail _ _ _ _ hle, drop_zero] at hhash
  rw [← hhash]
  unfold hashlittleZeroed
  rw [UInt32.add_zero]
  rfl

lemma seen_false : seen false data zeroAt = data := by
  apply ext_getElem
  · simp
  · intro i h₁ h₂
    simp [seen, byteAt, h₂]

lemma jenkinsLookup3_eq : jenkinsLookup3 data = hashFrom (seeded data.length) data := by
  rw [jenkinsLookup3, hashlittle, hashlittleZeroed_eq, seen_false]

lemma seen_true (h : zeroAt + 4 ≤ data.length) :
    seen true data zeroAt = patch data zeroAt (.replicate 4 0) := by
  apply ext_getElem?
  intro i
  rw [getElem?_patch (by omega), length_replicate]
  by_cases hi : i < data.length
  · simp only [seen, byteAt, getElem?_map, getElem?_range hi]
    by_cases hfield : zeroAt ≤ i ∧ i < zeroAt + 4
    · rw [if_pos hfield, getElem?_replicate, if_pos (by omega)]
      simp [show i - zeroAt < 4 by omega, hfield.1]
    · rw [if_neg hfield]
      simp [show ¬ (zeroAt ≤ i ∧ i - zeroAt < 4) by omega, hi]
  · rw [if_neg (by omega), getElem?_eq_none (by simpa using hi), getElem?_eq_none (by omega)]

end Zeroed

open JenkinsLookup3 in
/-- A stream that is fed the whole input in slices gives its hash, and refuses a slice past the
declared length with its state unchanged. The zeroing hash is that of the data with zeros in the
field. -/
theorem lookup3_stream_zeroed :
    (∀ slices : List Bytes, ∃ s, (new slices.flatten.length).updateAll slices = .ok s ∧
      s.finish = .ok (jenkinsLookup3 slices.flatten)) ∧
    (∀ (totalLen : ℕ) (slices : List Bytes) (s : JenkinsLookup3) (data : Bytes),
      (new totalLen).updateAll slices = .ok s → totalLen < slices.flatten.length + data.length →
        s.update data = (.error (.internal "checksum input exceeds its declared length"), s)) ∧
    (∀ (data : Bytes) (p : ℕ), p + 4 ≤ data.length →
      hashlittleZeroed true data 0 p =
        jenkinsLookup3 (data.take p ++ [0, 0, 0, 0] ++ data.drop (p + 4))) := by
  refine ⟨?_, ?_, ?_⟩
  · intro slices
    have howes : Owes (new slices.flatten.length) (slices.flatten ++ [])
        (jenkinsLookup3 slices.flatten) := by
      rw [append_nil, jenkinsLookup3_eq]
      exact ⟨new_fits _, rfl, rfl⟩
    obtain ⟨s, hs, howes'⟩ := howes.updateAll
    exact ⟨s, hs, howes'.finish⟩
  · intro totalLen slices s data hs hlen
    have hrem : s.remaining + slices.flatten.length = totalLen := (new_fits totalLen).updateAll hs
    exact if_pos (by omega)
  · intro data p hp
    have hlength : (data.take p ++ [0, 0, 0, 0] ++ data.drop (p + 4)).length = data.length := by
      simp
      omega
    rw [hashlittleZeroed_eq, seen_true data p hp, jenkinsLookup3_eq, hlength]
    rfl

theorem lookup3_stream_zeroed_short :
    (JenkinsLookup3.new 2).update [1, 2, 3] =
        (.error (.internal "checksum input exceeds its declared length"), .new 2) ∧
      hashlittleZeroed true [1, 2, 3, 4, 5] 0 1 = jenkinsLookup3 [1, 0, 0, 0, 0] :=
  ⟨lookup3_stream_zeroed.2.1 2 [] _ [1, 2, 3] rfl (by decide),
    lookup3_stream_zeroed.2.2 [1, 2, 3, 4, 5] 1 (by decide)⟩

end Hdf5Pure.Format
