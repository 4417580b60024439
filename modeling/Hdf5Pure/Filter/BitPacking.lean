import Hdf5Pure.Filter.Error

/-!
# Packed offsets

`pack_offsets` and `BitReader` of `crates/hdf5-pure-filter/src/scaleoffset/mod.rs`. Offsets are packed
most significant bit first. The writer keeps the bits that are not yet a byte at the bottom of an
accumulator, with stale bits above them; the reader loads a window of nine bytes for each offset.
-/

namespace Hdf5Pure.Filter

open List

/-! ## Writing -/

/-- The bytes written so far, and an accumulator whose low `nbits` bits are still to be written. -/
structure PackState where
  buf : Bytes
  acc : ℕ
  nbits : ℕ
deriving DecidableEq, Repr

namespace PackState

/-- Writes whole bytes while the accumulator has them. The first argument bounds their number. -/
def drain : ℕ → PackState → PackState
  | 0, s => s
  | fuel + 1, s =>
    if 8 ≤ s.nbits then
      drain fuel ⟨s.buf ++ [UInt8.ofNat (s.acc >>> (s.nbits - 8) &&& 0xff)], s.acc, s.nbits - 8⟩
    else s

/-- Adds the `minbits` bits of one offset. The merged value of at most 128 bits is exact. -/
def merge (minbits : ℕ) (s : PackState) (v : ℕ) : PackState :=
  let mask := 2 ^ minbits - 1
  let combined := s.acc <<< minbits ||| (v &&& mask)
  let total := s.nbits + minbits
  if total ≤ 64 then ⟨s.buf, combined % 2 ^ 64, total⟩
  else
    let drop := total - 64
    let top := (combined >>> drop) % 2 ^ 64
    ⟨s.buf ++ beBytes 8 top, combined &&& (2 ^ drop - 1), drop⟩

def push (minbits : ℕ) (s : PackState) (v : ℕ) : PackState := merge minbits (s.drain s.nbits) v

def close (s : PackState) : Bytes :=
  if 0 < s.nbits then s.buf ++ [UInt8.ofNat (s.acc <<< (8 - s.nbits) &&& 0xff)] else s.buf

def finish (s : PackState) : Bytes := (s.drain s.nbits).close

end PackState

def packOffsets (offsets : List ℕ) (minbits nelmts : ℕ) : Bytes :=
  let payloadLen := nelmts * minbits / 8 + 1
  if minbits = 0 then replicate payloadLen 0
  else
    let buf := (offsets.foldl (PackState.push minbits) ⟨[], 0, 0⟩).finish
    buf ++ replicate (payloadLen - buf.length) 0

/-! ## Reading -/

/-- The nine bytes from `byte` on, zeros after the end of the payload. -/
def readWindow (payload : Bytes) (byte : ℕ) : Bytes :=
  if byte + 9 ≤ payload.length then (payload.drop byte).take 9
  else
    let take := min (payload.length - byte) 9
    (payload.drop byte).take take ++ replicate (9 - take) 0

def readBits (payload : Bytes) (bitPos minbits : ℕ) : ℕ :=
  let byte := bitPos >>> 3
  let off := bitPos &&& 7
  let window := readWindow payload byte
  let hi := beNat (window.take 8)
  let lo := (window.getD 8 0).toNat
  let combined := if off = 0 then hi else hi <<< off % 2 ^ 64 ||| lo >>> (8 - off)
  combined >>> (64 - minbits)

/-! ## What the writer writes -/

variable {minbits : ℕ} {offsets : List ℕ}

namespace PackState

/-- The state holds the `bits` bits of the number `p`. -/
structure Holds (p bits : ℕ) (s : PackState) : Prop where
  buf : beNat s.buf = p / 2 ^ s.nbits
  acc : s.acc % 2 ^ s.nbits = p % 2 ^ s.nbits
  bits : 8 * s.buf.length + s.nbits = bits

lemma mod_pow_eq_of_le {a b m n : ℕ} (h : a % 2 ^ n = b % 2 ^ n) (hle : m ≤ n) :
    a % 2 ^ m = b % 2 ^ m := by
  rw [← Nat.mod_mod_of_dvd a (pow_dvd_pow 2 hle), h, Nat.mod_mod_of_dvd _ (pow_dvd_pow 2 hle)]

/-- Digits of a number that agrees with `p` below `2 ^ (k + w)`. -/
lemma div_mod_pow_eq {a p k w : ℕ} (h : a % 2 ^ (k + w) = p % 2 ^ (k + w)) :
    a / 2 ^ k % 2 ^ w = p / 2 ^ k % 2 ^ w := by
  rw [← Nat.mod_mul_right_div_self, ← pow_add, h, pow_add, Nat.mod_mul_right_div_self]

lemma div_mul_add_mod (p k w : ℕ) : p / 2 ^ (k + w) * 2 ^ w + p / 2 ^ k % 2 ^ w = p / 2 ^ k := by
  rw [pow_add, ← Nat.div_div_eq_div_mul]
  exact Nat.div_add_mod' _ _

variable {s : PackState}

lemma Holds.drain {p bits fuel : ℕ} (h : s.Holds p bits) : (s.drain fuel).Holds p bits := by
  induction fuel generalizing s with
  | zero => exact h
  | succ fuel ih =>
    rw [PackState.drain]
    split_ifs with h8
    · have hexp : s.nbits - 8 + 8 = s.nbits := by omega
      have hacc : s.acc % 2 ^ (s.nbits - 8 + 8) = p % 2 ^ (s.nbits - 8 + 8) := by
        rw [hexp]
        exact h.acc
      have hbyte : (UInt8.ofNat (s.acc >>> (s.nbits - 8) &&& 0xff)).toNat =
          p / 2 ^ (s.nbits - 8) % 2 ^ 8 := by
        rw [UInt8.toNat_ofNat', show (0xff : ℕ) = 2 ^ 8 - 1 from rfl,
          Nat.and_two_pow_sub_one_eq_mod, Nat.mod_mod, Nat.shiftRight_eq_div_pow]
        exact div_mod_pow_eq hacc
      refine ih ⟨?_, mod_pow_eq_of_le h.acc (Nat.sub_le _ _), ?_⟩
      · show beNat (s.buf ++ [_]) = p / 2 ^ (s.nbits - 8)
        have hdigits := div_mul_add_mod p (s.nbits - 8) 8
        rw [hexp] at hdigits
        rw [beNat_append, beNat_singleton, hbyte, h.buf, length_singleton, pow_one]
        exact hdigits
      · show 8 * (s.buf ++ [_]).length + (s.nbits - 8) = bits
        rw [length_append, length_singleton, ← h.bits]
        omega
    · exact h

lemma nbits_drain_lt {fuel : ℕ} (h : s.nbits ≤ fuel) : (s.drain fuel).nbits < 8 := by
  induction fuel generalizing s with
  | zero =>
    show s.nbits < 8
    omega
  | succ fuel ih =>
    rw [PackState.drain]
    split_ifs with h8
    · apply ih
      show s.nbits - 8 ≤ fuel
      omega
    · omega

lemma Holds.merge {p bits v : ℕ} (h : s.Holds p bits) (hv : v < 2 ^ minbits) :
    (s.merge minbits v).Holds (p * 2 ^ minbits + v) (bits + minbits) := by
  have hcombined : s.acc <<< minbits ||| (v &&& (2 ^ minbits - 1)) = s.acc * 2 ^ minbits + v := by
    rw [Nat.and_two_pow_sub_one_eq_mod, Nat.mod_eq_of_lt hv, ← Nat.shiftLeft_add_eq_or_of_lt hv,
      Nat.shiftLeft_eq]
  -- the merged value agrees with the number in all bits that are not in the buffer
  have hagree : (s.acc * 2 ^ minbits + v) % 2 ^ (s.nbits + minbits) =
      (p * 2 ^ minbits + v) % 2 ^ (s.nbits + minbits) := by
    rw [pow_add]
    apply Nat.ModEq.add_right
    exact Nat.ModEq.mul_right' _ h.acc
  have hbuf : beNat s.buf = (p * 2 ^ minbits + v) / 2 ^ (s.nbits + minbits) := by
    rw [h.buf, Nat.add_comm s.nbits, pow_add, ← Nat.div_div_eq_div_mul, Nat.add_comm (p * _),
      Nat.add_mul_div_right _ _ (by positivity), Nat.div_eq_of_lt hv, Nat.zero_add]
  unfold PackState.merge
  dsimp only
  rw [hcombined]
  split_ifs with htotal
  · refine ⟨hbuf, ?_, ?_⟩
    · show (s.acc * 2 ^ minbits + v) % 2 ^ 64 % 2 ^ (s.nbits + minbits) = _
      rw [Nat.mod_mod_of_dvd _ (pow_dvd_pow 2 htotal), hagree]
    · show 8 * s.buf.length + (s.nbits + minbits) = _
      rw [← h.bits]
      omega
  · have hexp : s.nbits + minbits = s.nbits + minbits - 64 + 64 := by omega
    generalize s.nbits + minbits - 64 = d at hexp
    rw [hexp] at hagree hbuf
    refine ⟨?_, ?_, ?_⟩
    · show beNat (s.buf ++ beBytes 8 _) = (p * 2 ^ minbits + v) / 2 ^ d
      rw [beNat_append, length_beBytes, beNat_beBytes, show (256 : ℕ) ^ 8 = 2 ^ 64 from rfl,
        Nat.mod_mod, Nat.shiftRight_eq_div_pow, div_mod_pow_eq hagree, hbuf, div_mul_add_mod]
    · show ((s.acc * 2 ^ minbits + v) &&& (2 ^ d - 1)) % 2 ^ d = _
      rw [Nat.and_two_pow_sub_one_eq_mod, Nat.mod_mod]
      exact mod_pow_eq_of_le hagree (Nat.le_add_right d 64)
    · show 8 * (s.buf ++ beBytes 8 _).length + d = _
      rw [length_append, length_beBytes, ← h.bits]
      omega

lemma foldl_push_holds (h : ∀ v ∈ offsets, v < 2 ^ minbits) :
    (offsets.foldl (push minbits) ⟨[], 0, 0⟩).Holds (packNat minbits offsets)
      (offsets.length * minbits) := by
  induction offsets using reverseRecOn with
  | nil =>
    refine ⟨?_, rfl, ?_⟩
    · show 0 = 0 / 2 ^ 0
      rw [Nat.zero_div]
    · show 8 * 0 + 0 = 0 * minbits
      omega
  | append_singleton offsets v ih =>
    rw [foldl_append, packNat_append_singleton, length_append, length_singleton,
      Nat.succ_mul]
    exact (ih fun w hw => h w (mem_append_left _ hw)).drain.merge (h v (by simp))

lemma Holds.close {p bits : ℕ} (h : s.Holds p bits) (hlt : s.nbits < 8) :
    s.close.length = (bits + 7) / 8 ∧ beNat s.close = p * 2 ^ (8 * s.close.length - bits) := by
  have hbits := h.bits
  unfold PackState.close
  split_ifs with hpos
  · have hexp : (2 : ℕ) ^ 8 = 2 ^ s.nbits * 2 ^ (8 - s.nbits) := by
      rw [← pow_add]
      congr 1
      omega
    have hbyte : (UInt8.ofNat (s.acc <<< (8 - s.nbits) &&& 0xff)).toNat =
        p % 2 ^ s.nbits * 2 ^ (8 - s.nbits) := by
      rw [UInt8.toNat_ofNat', show (0xff : ℕ) = 2 ^ 8 - 1 from rfl, Nat.and_two_pow_sub_one_eq_mod,
        Nat.mod_mod, Nat.shiftLeft_eq, ← h.acc, hexp, Nat.mul_mod_mul_right]
    have hlen : (s.buf ++ [UInt8.ofNat (s.acc <<< (8 - s.nbits) &&& 0xff)]).length =
        s.buf.length + 1 := by
      rw [length_append, length_singleton]
    refine ⟨by rw [hlen]; omega, ?_⟩
    rw [hlen, show 8 * (s.buf.length + 1) - bits = 8 - s.nbits by omega, beNat_append,
      beNat_singleton, hbyte, h.buf, length_singleton, pow_one,
      show (256 : ℕ) = 2 ^ s.nbits * 2 ^ (8 - s.nbits) from hexp]
    conv_rhs => rw [← Nat.div_add_mod' p (2 ^ s.nbits)]
    ring
  · have hzero : s.nbits = 0 := by omega
    refine ⟨by omega, ?_⟩
    rw [h.buf, hzero, pow_zero, Nat.div_one, show 8 * s.buf.length - bits = 0 by omega, pow_zero,
      Nat.mul_one]

end PackState

/-- The packed payload has the announced length and denotes the offsets as digits. -/
lemma packOffsets_spec (hmin : 1 ≤ minbits) (h : ∀ v ∈ offsets, v < 2 ^ minbits) :
    let payload := packOffsets offsets minbits offsets.length
    payload.length = offsets.length * minbits / 8 + 1 ∧
      beNat payload =
        packNat minbits offsets * 2 ^ (8 * payload.length - offsets.length * minbits) := by
  obtain ⟨hlen, hnum⟩ := ((PackState.foldl_push_holds h).drain).close
    (PackState.nbits_drain_lt le_rfl)
  unfold packOffsets
  rw [if_neg (by omega)]
  change (PackState.finish _).length = _ at hlen
  change beNat (PackState.finish _) = _ * 2 ^ (8 * (PackState.finish _).length - _) at hnum
  generalize (offsets.foldl (PackState.push minbits) ⟨[], 0, 0⟩).finish = buf at hlen hnum
  have htotal : (buf ++ replicate (offsets.length * minbits / 8 + 1 - buf.length) 0).length =
      offsets.length * minbits / 8 + 1 := by
    rw [length_append, length_replicate]
    omega
  refine ⟨htotal, ?_⟩
  rw [htotal, beNat_append_zeros, hnum, Nat.mul_assoc, show (256 : ℕ) = 2 ^ 8 from rfl, ← pow_mul,
    ← pow_add]
  congr 2
  omega

/-! ## What the reader reads -/

lemma length_readWindow (payload : Bytes) (byte : ℕ) : (readWindow payload byte).length = 9 := by
  unfold readWindow
  split_ifs with h
  · rw [length_take, length_drop]
    omega
  · rw [length_append, length_take, length_drop, length_replicate]
    omega

variable {payload : Bytes}

lemma readWindow_eq {byte : ℕ} (h : byte ≤ payload.length) :
    readWindow payload byte = ((payload ++ replicate 9 0).drop byte).take 9 := by
  unfold readWindow
  dsimp only
  rw [drop_append_of_le_length h, take_append, length_drop, take_replicate]
  split_ifs with h9
  · rw [show min (9 - (payload.length - byte)) 9 = 0 by omega, replicate_zero, append_nil]
  · rw [min_eq_left (by omega), take_of_length_le (by rw [length_drop]),
      take_of_length_le (by rw [length_drop]; omega), min_eq_left (by omega)]

lemma beNat_readWindow {byte : ℕ} (h : byte ≤ payload.length) :
    beNat (readWindow payload byte) =
      beNat payload * 2 ^ 72 / 2 ^ (8 * (payload.length - byte)) % 2 ^ 72 := by
  rw [readWindow_eq h, beNat_slice (by rw [length_append, length_replicate]; omega),
    beNat_append_zeros, length_append, length_replicate,
    show payload.length + 9 - byte - 9 = payload.length - byte by omega,
    show (256 : ℕ) = 2 ^ 8 from rfl, ← pow_mul, ← pow_mul]

/-- Shifting the high and the low part of a window is shifting the window. -/
lemma combine_eq {hi lo off : ℕ} (hlo : lo < 256) (hhi : hi < 2 ^ 64) (hoff : off < 8) :
    (if off = 0 then hi else hi <<< off % 2 ^ 64 ||| lo >>> (8 - off)) =
      (hi * 256 + lo) / 2 ^ (8 - off) % 2 ^ 64 := by
  split_ifs with h0
  · subst h0
    omega
  have hexp : (256 : ℕ) = 2 ^ off * 2 ^ (8 - off) := by
    rw [← pow_add, show off + (8 - off) = 8 by omega]
    rfl
  have hlow : lo >>> (8 - off) < 2 ^ off := by
    rw [Nat.shiftRight_eq_div_pow, Nat.div_lt_iff_lt_mul (by positivity), ← hexp]
    exact hlo
  have h64 : (2 : ℕ) ^ 64 = 2 ^ off * 2 ^ (64 - off) := by
    rw [← pow_add, show off + (64 - off) = 64 by omega]
  have hhigh : hi <<< off % 2 ^ 64 = (hi % 2 ^ (64 - off)) <<< off := by
    rw [Nat.shiftLeft_eq, Nat.shiftLeft_eq, h64, Nat.mul_comm hi, Nat.mul_mod_mul_left,
      Nat.mul_comm]
  have hdiv : (hi * 256 + lo) / 2 ^ (8 - off) = lo >>> (8 - off) + 2 ^ off * hi := by
    rw [hexp, ← Nat.mul_assoc, Nat.add_comm, Nat.add_mul_div_right _ _ (by positivity),
      Nat.shiftRight_eq_div_pow, Nat.mul_comm hi]
  rw [hhigh, ← Nat.shiftLeft_add_eq_or_of_lt hlow, Nat.shiftLeft_eq, hdiv, h64, Nat.mod_mul,
    Nat.add_mul_mod_self_left, Nat.mod_eq_of_lt hlow, Nat.add_mul_div_left _ _ (by positivity),
    Nat.div_eq_of_lt hlow, Nat.zero_add]
  ring

/-- Reading returns a range of the payload's bits. -/
lemma readBits_eq {bitPos : ℕ} (hmin : 1 ≤ minbits) (hmax : minbits ≤ 64)
    (h : bitPos + minbits ≤ 8 * payload.length) :
    readBits payload bitPos minbits =
      beNat payload / 2 ^ (8 * payload.length - bitPos - minbits) % 2 ^ minbits := by
  have hbyte : bitPos >>> 3 = bitPos / 8 := Nat.shiftRight_eq_div_pow bitPos 3
  have hoff : bitPos &&& 7 = bitPos % 8 := Nat.and_two_pow_sub_one_eq_mod bitPos 3
  have hle : bitPos / 8 ≤ payload.length := by omega
  have hwin := beNat_readWindow hle
  have hlen := length_readWindow payload (bitPos / 8)
  unfold readBits
  dsimp only
  rw [hbyte, hoff]
  generalize readWindow payload (bitPos / 8) = window at hwin hlen
  -- the window is its first eight bytes and its last one
  have hsplit : beNat window = beNat (window.take 8) * 256 + (window.getD 8 0).toNat := by
    conv_lhs => rw [← take_append_drop 8 window, drop_eq_getElem_cons (by omega),
      drop_of_length_le (by omega)]
    rw [beNat_append, beNat_singleton, length_singleton, pow_one, getD_eq_getElem]
  have hhi : beNat (window.take 8) < 2 ^ 64 := by
    have := beNat_lt (window.take 8)
    rwa [length_take, min_eq_left (by omega), show (256 : ℕ) ^ 8 = 2 ^ 64 from rfl] at this
  rw [combine_eq (window.getD 8 0).toNat_lt hhi (Nat.mod_lt _ (by omega)), ← hsplit, hwin,
    Nat.shiftRight_eq_div_pow]
  have hmod : ∀ y : ℕ, y % 2 ^ 72 / 2 ^ (8 - bitPos % 8) % 2 ^ 64 =
      y / 2 ^ (8 - bitPos % 8) % 2 ^ 64 := by
    intro y
    apply PackState.div_mod_pow_eq
    exact Nat.mod_mod_of_dvd y (pow_dvd_pow 2 (by omega))
  rw [hmod, show (2 : ℕ) ^ 64 = 2 ^ (64 - minbits) * 2 ^ minbits by rw [← pow_add]; congr 1; omega,
    Nat.mod_mul_right_div_self, Nat.div_div_eq_div_mul, Nat.div_div_eq_div_mul, ← pow_add, ← pow_add,
    show 8 * (payload.length - bitPos / 8) + (8 - bitPos % 8 + (64 - minbits)) =
      8 * payload.length - bitPos - minbits + 72 by omega, pow_add,
    Nat.mul_div_mul_right _ _ (by positivity)]

/-- Reading the packed payload at a multiple of `minbits` returns the offset there. -/
lemma readBits_packOffsets {a b : List ℕ} {v : ℕ} (hmin : 1 ≤ minbits) (hmax : minbits ≤ 64)
    (h : ∀ w ∈ a ++ v :: b, w < 2 ^ minbits) :
    readBits (packOffsets (a ++ v :: b) minbits (a ++ v :: b).length) (a.length * minbits) minbits =
      v := by
  obtain ⟨hlen, hnum⟩ := packOffsets_spec hmin h
  have hcount : (a ++ v :: b).length * minbits = a.length * minbits + minbits + minbits * b.length := by
    rw [length_append, length_cons]
    ring
  rw [readBits_eq hmin hmax (by rw [hlen, hcount]; omega), hnum,
    show 8 * (packOffsets (a ++ v :: b) minbits (a ++ v :: b).length).length - a.length * minbits -
        minbits = minbits * b.length + (8 * (packOffsets (a ++ v :: b) minbits
        (a ++ v :: b).length).length - (a ++ v :: b).length * minbits) by rw [hlen, hcount]; omega,
    pow_add, Nat.mul_div_mul_right _ _ (by positivity)]
  rw [append_cons, packNat_div _ fun w hw => h w (by simp [hw]), packNat_append_singleton,
    Nat.add_comm, Nat.add_mul_mod_self_right, Nat.mod_eq_of_lt (h v (by simp))]

end Hdf5Pure.Filter
